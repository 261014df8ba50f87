/-
SchemaSanitizer/Strategy.lean

The two lookup strategies of the materializer.  A level of a plan, the root or the
children of a struct, reads its source either through a snapshot, which routes
each key to a planned field once, or by one lookup per column; the width of the
level and its variants decide (`should_snapshot_root_fields`,
`should_snapshot_object_fields`).  Here the decision is a parameter:

    convertCellsBy opts shouldSnapshot plan row = convertMaterializedCells opts plan row.

`convertMaterializedCells_strategy`: on rows where at every level the first field that is
routed to a column has the value of the field that matches the column best
(`ColumnAgrees`), all decisions give the same result.  A snapshot holds the first routed
fields (`snapshotFind_eq`), the lookups find the best matches (`lookupColumn_eq`), and the
rest of the conversion only sees the values.  Plans of plain names meet the condition on
every row (`rowAgrees_plain`); with a flattened column the strategy shows
(`convertCellsBy_flattened`).
-/
import SchemaSanitizer.Rows

namespace SchemaSanitizer

open List Option

/-! ### The conversion with a given strategy -/

/-- A strategy: the lists of columns that are read through a snapshot. -/
abbrev Strategy := List ColumnPlan → Bool

section ByStrategy

variable (opts : ConvertOptions) (wide : Strategy)

/-- `find_object_child_value`, by one strategy or the other. -/
def objectChildValueBy (layout : Option StructLayout) (children : List ColumnPlan) (fields : Row)
    (index : Nat) (child : ColumnPlan) : Option Value :=
  if wide children then
    snapshotFind (buildObjectSnapshot opts layout children fields) fields index
  else findUnflattened opts fields child.name

/-- `find_strict_extra_field`, over the snapshot or over the object. -/
def strictExtraFieldBy (layout : Option StructLayout) (children : List ColumnPlan) (fields : Row) :
    Bytes :=
  match layout with
  | some l =>
    if opts.rejectsUnknown then
      if wide children then (extraKeys opts l fields).headD []
      else ((extraKeys opts l fields).find? (· != [])).getD []
    else []
  | none => []

mutual

/-- `convert_value`. -/
def convertValueBy : ColumnPlan → Value → Except CoerceError Cell
  | ⟨name, kind, path, has, indices, layout, children, value⟩, v =>
    let plan : ColumnPlan := ⟨name, kind, path, has, indices, layout, children, value⟩
    if v.containerIsEmpty then .ok (convertNull plan)
    else
      match kind, v with
      | .struct, .null => .ok (convertNull plan)
      | .struct, .object fields => do
          let extra := strictExtraFieldBy opts wide layout children fields
          if extra ≠ [] then
            setConversionError plan .typeMismatch (bytes "unexpected field '" ++ extra ++
              bytes "' in strict struct '" ++ name ++ bytes "'")
          else
            let cells ← convertSiblingsBy children
              (objectChildValueBy opts wide layout children fields) 0 children
            .ok (.struct cells)
      | .struct, v =>
        if hasDefaultKeyChild opts layout children then do
          let cells ← convertWrappedBy v children
          .ok (.struct cells)
        else expectedError plan (bytes "struct")
      | .list, .null => .ok (convertNull plan)
      | .list, v => convertListBy plan v value
      | .scalar k, v => convertScalar opts plan k v

/-- `convert_list`. -/
def convertListBy (plan : ColumnPlan) (v : Value) : Option ColumnPlan → Except CoerceError Cell
  | none => setConversionError plan .typeMismatch
      (bytes "list field '" ++ plan.name ++ bytes "' has no element plan")
  | some elem =>
    match v with
    | .array elements => do
        let cells ← elements.mapM (convertValueBy elem)
        .ok (.list cells)
    | v => do
        let cell ← convertValueBy elem v
        .ok (.list [cell])

/-- The loop over sibling columns. -/
def convertSiblingsBy (columns : List ColumnPlan) (source : Nat → ColumnPlan → Option Value) :
    Nat → List ColumnPlan → Except CoerceError (List Cell)
  | _, [] => .ok []
  | index, column :: rest => do
      let cell ← convertSibling opts columns index column (sourceValue (source index column))
        (convertValueBy column)
      let cells ← convertSiblingsBy columns source (index + 1) rest
      .ok (cell :: cells)

/-- `convert_wrapped_struct`. -/
def convertWrappedBy (v : Value) : List ColumnPlan → Except CoerceError (List Cell)
  | [] => .ok []
  | child :: rest => do
      let converted :=
        if fieldNameMatchesOutput opts.toNameOptions opts.defaultKeyName child.name then
          convertValueBy child v
        else .ok (convertNull child)
      let cell ← converted
      let cells ← convertWrappedBy v rest
      .ok (cell :: cells)

end

/-- The value of a root column. -/
def rootSourceBy (plan : CompiledPlan) (row : RowRef) (index : Nat) (column : ColumnPlan) :
    Option Value :=
  if takesSourceFile row column then some (.string row.sourceFile)
  else if wide plan.columns then snapshotSource opts plan row index column
  else lookupSource opts row index column

/-- `convert_materialized_cells`. -/
def convertCellsBy (plan : CompiledPlan) (row : RowRef) :
    Except Bytes (Except CoerceError (List Cell)) := do
  checkStrictRow opts plan row
  .ok (convertSiblingsBy opts wide plan.columns (rootSourceBy opts wide plan row) 0 plan.columns)

end ByStrategy

/-! ### The strategy of the code -/

variable {v : Value} {plan : ColumnPlan}

section Code

variable {opts : ConvertOptions}

theorem strictExtraFieldBy_code (layout : Option StructLayout) (children : List ColumnPlan)
    (fields : Row) : strictExtraFieldBy opts shouldSnapshot layout children fields =
      strictExtraField opts layout children fields := by
  rcases layout with - | l
  · rfl
  · rfl

theorem convertSiblingsBy_code {columns : List ColumnPlan}
    {source : Nat → ColumnPlan → Option Value} : ∀ {rest : List ColumnPlan} (index : Nat),
    (∀ column ∈ rest, ∀ v, convertValueBy opts shouldSnapshot column v =
      convertValue opts column v) →
      convertSiblingsBy opts shouldSnapshot columns source index rest =
        convertSiblings opts columns source index rest
  | [], _, _ => rfl
  | column :: rest, index, h => by
    have hcolumn : convertValueBy opts shouldSnapshot column = convertValue opts column :=
      funext (h column mem_cons_self)
    rw [convertSiblingsBy, convertSiblings, hcolumn,
      convertSiblingsBy_code (index + 1) fun c hc => h c (mem_cons_of_mem column hc)]

theorem convertWrappedBy_code : ∀ {rest : List ColumnPlan},
    (∀ column ∈ rest, ∀ v, convertValueBy opts shouldSnapshot column v =
      convertValue opts column v) →
      convertWrappedBy opts shouldSnapshot v rest = convertWrapped opts v rest
  | [], _ => rfl
  | column :: rest, h => by
    rw [convertWrappedBy, convertWrapped, h column mem_cons_self,
      convertWrappedBy_code fun c hc => h c (mem_cons_of_mem column hc)]

theorem convertListBy_code {value : Option ColumnPlan}
    (h : ∀ elem, value = some elem →
      ∀ v, convertValueBy opts shouldSnapshot elem v = convertValue opts elem v) :
    convertListBy opts shouldSnapshot plan v value = convertList opts plan v value := by
  rcases value with - | elem
  · rfl
  · have helem : convertValueBy opts shouldSnapshot elem = convertValue opts elem :=
      funext (h elem rfl)
    rw [convertListBy.eq_def, convertList.eq_def]
    cases v <;> simp only [helem]

theorem convertValueBy_code (plan : ColumnPlan) :
    ∀ v, convertValueBy opts shouldSnapshot plan v = convertValue opts plan v := by
  induction plan with
  | plan plan ihc ihv =>
    intro v
    obtain ⟨name, kind, path, has, indices, layout, children, value⟩ := plan
    have hsource : objectChildValueBy opts shouldSnapshot = objectChildValue opts := rfl
    rw [convertValueBy.eq_def]
    dsimp only at ihc ihv ⊢
    simp only [strictExtraFieldBy_code, hsource, convertSiblingsBy_code _ ihc,
      convertWrappedBy_code ihc, convertListBy_code ihv]
    exact (convertValue.eq_def opts ⟨name, kind, path, has, indices, layout, children,
      value⟩ v).symm

theorem convertCellsBy_code (plan : CompiledPlan) (row : RowRef) :
    convertCellsBy opts shouldSnapshot plan row = convertMaterializedCells opts plan row := by
  unfold convertCellsBy convertMaterializedCells
  rw [convertSiblingsBy_code 0 fun column _ => convertValueBy_code column]
  rfl

end Code

/-! ### What a snapshot holds -/

variable {j : Nat} {column : ColumnPlan} {layout : Option StructLayout} {α : Type}

/-- The key is routed to the column at a place: by the layout, as a sibling of the column the
layout names, or, without a layout, by any of the column's names. -/
def routedTo (opts : ConvertOptions) (layout : Option StructLayout) (columns : List ColumnPlan)
    (key : Bytes) (index : Nat) (column : ColumnPlan) : Bool :=
  match layout with
  | some l =>
    match findPlannedField l opts.toNameOptions key with
    | some planned =>
      planned == index ||
        (((columns[planned]?.map ColumnPlan.variantSiblingIndices).getD []).contains index &&
          fieldMatchesColumn opts key column)
    | none => false
  | none => fieldMatchesColumn opts key column

/-- A place of the snapshot when a field is offered to it: a free place takes what fits. -/
def fillFree {π : Type} (fits : Bool) (x : π) : Option (Option π) → Option (Option π)
  | some none => if fits then some (some x) else some none
  | entry => entry

section Snapshot

variable {opts : ConvertOptions} {columns : List ColumnPlan} {π : Type}

theorem fillFree_false (x : π) (entry : Option (Option π)) : fillFree false x entry = entry := by
  rcases entry with - | - | y <;> rfl

theorem fillFree_fillFree (a b : Bool) (x : π) (entry : Option (Option π)) :
    fillFree b x (fillFree a x entry) = fillFree (a || b) x entry := by
  rcases entry with - | - | y
  · rfl
  · cases a <;> rfl
  · rfl

theorem getElem?_assignColumnField (indices : List (Option π)) (c : Nat) (x : π) (j : Nat) :
    (assignColumnField indices c x)[j]? = fillFree (c == j) x indices[j]? := by
  unfold assignColumnField
  by_cases hc : c = j
  · subst hc
    rw [beq_self_eq_true]
    rcases hentry : indices[c]? with - | - | y
    · exact hentry
    · have hlt := (List.getElem?_eq_some_iff.mp hentry).1
      exact getElem?_set_self hlt
    · exact hentry
  · rw [beq_false_of_ne hc, fillFree_false]
    split
    · exact getElem?_set_ne hc
    · rfl

theorem getElem?_foldl_siblings {π : Type} (matchesAt : Nat → Bool) (x : π) (j : Nat) :
    ∀ (siblings : List Nat) (indices : List (Option π)),
    (siblings.foldl (fun indices sibling =>
        if matchesAt sibling then assignColumnField indices sibling x else indices) indices)[j]? =
      fillFree (siblings.contains j && matchesAt j) x indices[j]?
  | [], indices => (fillFree_false x _).symm
  | sibling :: siblings, indices => by
    have hstep : (if matchesAt sibling then assignColumnField indices sibling x else indices)[j]? =
        fillFree (j == sibling && matchesAt j) x indices[j]? := by
      by_cases hsibling : j = sibling
      · subst hsibling
        rcases hmatch : matchesAt j with - | -
        · rw [if_neg Bool.false_ne_true, Bool.and_false, fillFree_false]
        · rw [if_pos rfl, getElem?_assignColumnField, Bool.and_true]
      · rw [beq_false_of_ne hsibling, Bool.false_and, fillFree_false]
        split
        · rw [getElem?_assignColumnField, beq_false_of_ne (Ne.symm hsibling), fillFree_false]
        · rfl
    rw [foldl_cons, getElem?_foldl_siblings matchesAt x j siblings, hstep,
      fillFree_fillFree, contains_cons, Bool.and_or_distrib_right]

/-- **One round of the snapshot**, seen from one place. -/
theorem getElem?_routeField {layout : StructLayout} (hcolumn : columns[j]? = some column)
    (indices : List (Option π)) (f : Bytes × Value) (x : π) :
    (routeField opts layout columns indices (f, x))[j]? =
      fillFree (!f.2.containerIsEmpty && routedTo opts (some layout) columns f.1 j column) x
        indices[j]? := by
  unfold routeField routedTo
  dsimp only
  rcases hempty : f.2.containerIsEmpty with - | -
  · rw [if_neg Bool.false_ne_true, Bool.not_false, Bool.true_and]
    rcases findPlannedField layout opts.toNameOptions f.1 with - | planned
    · exact (fillFree_false x _).symm
    · dsimp only
      rw [getElem?_foldl_siblings (fun sibling =>
        (columns[sibling]?.map (fieldMatchesColumn opts f.1)).getD false),
        getElem?_assignColumnField, fillFree_fillFree, hcolumn]
      rfl
  · rw [if_pos rfl, Bool.not_true, Bool.false_and, fillFree_false]

theorem getElem?_offerField (hcolumn : columns[j]? = some column) (indices : List (Option π))
    (f : Bytes × Value) (x : π) :
    (offerField opts columns indices (f, x))[j]? =
      fillFree (!f.2.containerIsEmpty && routedTo opts none columns f.1 j column) x
      indices[j]? := by
  unfold offerField routedTo
  dsimp only
  rcases hempty : f.2.containerIsEmpty with - | -
  · rw [if_neg Bool.false_ne_true, Bool.not_false, Bool.true_and, getElem?_zipWith, hcolumn]
    rcases indices[j]? with - | - | y
    · rfl
    · rcases hmatch : fieldMatchesColumn opts f.1 column with - | - <;> simp [hmatch, fillFree]
    · rfl
  · rw [if_pos rfl, Bool.not_true, Bool.false_and, fillFree_false]

theorem getElem?_foldl_first (fits : α → Bool) {step : List (Option π) → α × π → List (Option π)}
    (hstep : ∀ indices a, (step indices a)[j]? = fillFree (fits a.1) a.2 indices[j]?) :
    ∀ (l : List (α × π)) {indices : List (Option π)}, indices[j]? = some none →
      (l.foldl step indices)[j]? = some ((l.find? fun a => fits a.1).map Prod.snd) := by
  have hkept : ∀ (l : List (α × π)) {indices : List (Option π)} {x : π},
      indices[j]? = some (some x) → (l.foldl step indices)[j]? = some (some x) := by
    intro l
    induction l with
    | nil => exact fun h => h
    | cons a l ih =>
      intro indices x h
      rw [foldl_cons]
      apply ih
      rw [hstep, h]
      rfl
  intro l
  induction l with
  | nil => exact fun h => h
  | cons a l ih =>
    intro indices h
    have hround := hstep indices a
    rw [h] at hround
    rw [foldl_cons, find?_cons]
    rcases hfits : fits a.1 with - | -
    · rw [hfits] at hround
      exact ih hround
    · rw [hfits] at hround
      exact hkept l hround

theorem find?_zipIdx_bind (fits : α → Bool) (l : List α) :
    ((l.zipIdx.find? fun a => fits a.1).map Prod.snd).bind (l[·]?) = l.find? fits := by
  have hfirst : l.find? fits = (l.zipIdx.find? fun a => fits a.1).map Prod.fst := by
    conv_lhs => rw [← zipIdx_map_fst 0 l, find?_map]
    rfl
  rw [hfirst]
  rcases hfound : l.zipIdx.find? fun a => fits a.1 with - | ⟨a, i⟩
  · rw [hfound]
    rfl
  · rw [hfound]
    exact mem_zipIdx_iff_getElem?.mp (mem_of_find?_eq_some hfound)

/-- The value of the first field that is routed to a column. -/
def firstRouted (opts : ConvertOptions) (layout : Option StructLayout) (columns : List ColumnPlan)
    (fields : Row) (index : Nat) (column : ColumnPlan) : Option Value :=
  (fields.find? fun f =>
    !f.2.containerIsEmpty && routedTo opts layout columns f.1 index column).map Prod.snd

/-- **The snapshot gives a column the first field routed to it.** -/
theorem snapshotFind_eq (hcolumn : columns[j]? = some column) (fields : Row) :
    snapshotFind (buildObjectSnapshot opts layout columns fields) fields j =
      firstRouted opts layout columns fields j column := by
  have hfree : (columns.map fun _ => (none : Option Nat))[j]? = some none := by
    rw [getElem?_map, hcolumn]
    rfl
  have hentry : (buildObjectSnapshot opts layout columns fields)[j]? =
      some ((fields.zipIdx.find? fun a =>
        !a.1.2.containerIsEmpty && routedTo opts layout columns a.1.1 j column).map Prod.snd) := by
    rcases layout with - | layout
    · exact getElem?_foldl_first
        (fun f : Bytes × Value => !f.2.containerIsEmpty && routedTo opts none columns f.1 j column)
        (fun indices a => getElem?_offerField hcolumn indices a.1 a.2) fields.zipIdx hfree
    · exact getElem?_foldl_first
        (fun f : Bytes × Value =>
          !f.2.containerIsEmpty && routedTo opts (some layout) columns f.1 j column)
        (fun indices a => getElem?_routeField hcolumn indices a.1 a.2) fields.zipIdx hfree
  rw [snapshotFind, hentry, getD_some, find?_zipIdx_bind (fun f : Bytes × Value =>
    !f.2.containerIsEmpty && routedTo opts layout columns f.1 j column), firstRouted]

end Snapshot

/-! ### What the lookups find -/

section Lookups

variable (opts : ConvertOptions) (root : Bool)

/-- The lookups of a column, at the root or in a struct. -/
def lookupColumn (fields : Row) (column : ColumnPlan) : Option Value :=
  (findUnflattened opts fields column.name).or
    (if root && column.hasVariantSibling && variantFamilyBase column.name != column.name then
      findField opts fields (variantFamilyBase column.name)
    else none)

/-- The value of the field that matches a column best: the first that matches its name; if there
is none, the first that matches the name without a flattening suffix; and at the root the first
that matches the base of a version family. -/
def bestMatch (fields : Row) (column : ColumnPlan) : Option Value :=
  ((fields.find? fun f =>
      fieldNameMatchesOutput opts.toNameOptions f.1 column.name && !f.2.containerIsEmpty).or
    ((fields.find? fun f => (unflattenedOutputName column.name != [] &&
        fieldNameMatchesOutput opts.toNameOptions f.1 (unflattenedOutputName column.name)) &&
          !f.2.containerIsEmpty).or
      (fields.find? fun f => (root && column.hasVariantSibling &&
        variantFamilyBase column.name != column.name &&
        fieldNameMatchesOutput opts.toNameOptions f.1 (variantFamilyBase column.name)) &&
          !f.2.containerIsEmpty))).map Prod.snd

variable {opts root}

theorem map_find?_and {β : Type} {live : α → Bool} {p : α → Bool} {g : α → β} (asked : Bool)
    (l : List α) : (if asked then (l.find? fun a => p a && live a).map g else none) =
      (l.find? fun a => (asked && p a) && live a).map g := by
  cases asked
  · simp
  · simp

/-- **The lookups ask for one name after the other**, so they find the best match. -/
theorem lookupColumn_eq (fields : Row) (column : ColumnPlan) :
    lookupColumn opts root fields column = bestMatch opts root fields column := by
  have hasked : ∀ x : Option Value, (if unflattenedOutputName column.name = [] then none else x) =
      if unflattenedOutputName column.name != [] then x else none := by
    intro x
    by_cases h : unflattenedOutputName column.name = [] <;> simp [h]
  unfold lookupColumn bestMatch findUnflattened findField
  rw [hasked, map_find?_and, map_find?_and, Option.map_or, Option.map_or, Option.or_assoc]

theorem lookupColumn_false (fields : Row) (column : ColumnPlan) :
    lookupColumn opts false fields column = findUnflattened opts fields column.name := by
  rw [lookupColumn, Bool.false_and, Bool.false_and, if_neg Bool.false_ne_true, or_none]

end Lookups

/-! ### Values on which the strategies agree -/

section AgreesOn

variable (opts : ConvertOptions)

/-- **Where the two strategies agree about a column**: the first field routed to it has the value
of its best match. -/
def ColumnAgrees (root : Bool) (layout : Option StructLayout) (columns : List ColumnPlan)
    (fields : Row) (index : Nat) (column : ColumnPlan) : Prop :=
  sourceValue (firstRouted opts layout columns fields index column) =
    sourceValue (bestMatch opts root fields column)

/-- An object and the children of a struct: the strategies agree about every child, and where a
strict contract looks for unplanned keys the first of them is not empty, unless all are. -/
structure LevelAgrees (layout : Option StructLayout) (children : List ColumnPlan) (fields : Row) :
    Prop where
  column : ∀ index child, children[index]? = some child →
    ColumnAgrees opts false layout children fields index child
  strict : opts.rejectsUnknown = true → ∀ l, layout = some l →
    (extraKeys opts l fields).head? = some [] → ∀ key ∈ extraKeys opts l fields, key = []

mutual

/-- **Every object that the conversion of a value meets is one the strategies agree about.** -/
def AgreesOn : ColumnPlan → Value → Prop
  | ⟨_, kind, _, _, _, layout, children, value⟩, v =>
    match kind, v with
    | .struct, .object fields =>
      LevelAgrees opts layout children fields ∧ ChildrenAgree fields children
    | .struct, v => WrappedAgrees v children
    | .list, v => ElementsAgree v value
    | .scalar _, _ => True

/-- The elements of an array, or a value that becomes the only element. -/
def ElementsAgree (v : Value) : Option ColumnPlan → Prop
  | none => True
  | some elem =>
    match v with
    | .array elements => ∀ e ∈ elements, AgreesOn elem e
    | v => AgreesOn elem v

/-- The values that the children of a struct read from an object. -/
def ChildrenAgree (fields : Row) : List ColumnPlan → Prop
  | [] => True
  | child :: rest =>
    AgreesOn child (sourceValue (bestMatch opts false fields child)) ∧ ChildrenAgree fields rest

/-- A value that the default-key children get. -/
def WrappedAgrees (v : Value) : List ColumnPlan → Prop
  | [] => True
  | child :: rest =>
    (fieldNameMatchesOutput opts.toNameOptions opts.defaultKeyName child.name = true →
      AgreesOn child v) ∧ WrappedAgrees v rest

end

/-- **A row on which the strategies agree**: about every root column that is not the name of
the source file, and on the value it reads. -/
structure RowAgrees (plan : CompiledPlan) (row : RowRef) : Prop where
  column : ∀ index column, plan.columns[index]? = some column → takesSourceFile row column = false →
    ColumnAgrees opts true (some plan.rootLayout) plan.columns row.fields index column
  value : ∀ column ∈ plan.columns, takesSourceFile row column = false →
    AgreesOn opts column (sourceValue (bestMatch opts true row.fields column))

end AgreesOn

variable {fields : Row} {index : Nat}

section Independence

variable {opts : ConvertOptions} {wide wide' : Strategy}

theorem childrenAgree_mem : ∀ {children : List ColumnPlan},
    ChildrenAgree opts fields children → ∀ child ∈ children,
      AgreesOn opts child (sourceValue (bestMatch opts false fields child))
  | c :: cs, ⟨hc, hcs⟩, child, hchild => by
    rcases mem_cons.mp hchild with rfl | hchild
    · exact hc
    · exact childrenAgree_mem hcs child hchild

theorem wrappedAgrees_of_forall : ∀ {children : List ColumnPlan},
    (∀ child ∈ children, AgreesOn opts child v) → WrappedAgrees opts v children
  | [], _ => trivial
  | c :: _, h => ⟨fun _ => h c mem_cons_self,
      wrappedAgrees_of_forall fun child hchild => h child (mem_cons_of_mem c hchild)⟩

theorem childrenAgree_of_forall : ∀ {children : List ColumnPlan},
    (∀ child ∈ children, ∀ v, AgreesOn opts child v) → ChildrenAgree opts fields children
  | [], _ => trivial
  | c :: _, h => ⟨h c mem_cons_self _,
      childrenAgree_of_forall fun child hchild => h child (mem_cons_of_mem c hchild)⟩

theorem agreesOn_string (s : Bytes) (plan : ColumnPlan) : AgreesOn opts plan (.string s) := by
  induction plan with
  | plan plan ihc ihv =>
    obtain ⟨_, kind, _, _, _, _, _, value⟩ := plan
    cases kind with
    | scalar k => trivial
    | struct => exact wrappedAgrees_of_forall ihc
    | list =>
      show ElementsAgree opts (.string s) value
      cases value with
      | none => trivial
      | some elem => exact ihv elem rfl

theorem sourceValue_objectChildValueBy {children : List ColumnPlan} {child : ColumnPlan}
    (hchild : children[index]? = some child)
    (h : ColumnAgrees opts false layout children fields index child) :
    sourceValue (objectChildValueBy opts wide layout children fields index child) =
      sourceValue (bestMatch opts false fields child) := by
  unfold objectChildValueBy
  split
  · rw [snapshotFind_eq hchild]
    exact h
  · rw [← lookupColumn_false, lookupColumn_eq]

section Root

variable {plan : CompiledPlan} {row : RowRef}

theorem snapshotSource_eq (hcolumn : plan.columns[index]? = some column) :
    snapshotSource opts plan row index column =
      firstRouted opts (some plan.rootLayout) plan.columns row.fields index column := by
  show snapshotFind (buildObjectSnapshot opts (some plan.rootLayout) _ _) _ _ = _
  exact snapshotFind_eq hcolumn row.fields

theorem lookupSource_eq (index : Nat) (column : ColumnPlan) :
    lookupSource opts row index column = bestMatch opts true row.fields column := by
  rw [← lookupColumn_eq, lookupSource, lookupColumn, Bool.true_and]

/-- The condition on the root columns is that of the two ways to append rows. -/
theorem routesAgree_iff : RoutesAgree opts plan row ↔
    ∀ index column, plan.columns[index]? = some column → takesSourceFile row column = false →
      ColumnAgrees opts true (some plan.rootLayout) plan.columns row.fields index column := by
  refine forall₄_congr fun index column hcolumn _ => ?_
  rw [snapshotSource_eq hcolumn, lookupSource_eq, ColumnAgrees]

theorem sourceValue_rootSourceBy (hcolumn : plan.columns[index]? = some column)
    (h : RowAgrees opts plan row) :
    sourceValue (rootSourceBy opts wide plan row index column) =
      if takesSourceFile row column then sourceValue (some (.string row.sourceFile))
      else sourceValue (bestMatch opts true row.fields column) := by
  unfold rootSourceBy
  split
  · rfl
  · rename_i hfile
    split
    · rw [snapshotSource_eq hcolumn]
      exact h.column index column hcolumn (Bool.eq_false_iff.mpr hfile)
    · rw [lookupSource_eq]

end Root

/-- The strict check finds the same field under every strategy. -/
theorem strictExtraFieldBy_eq {children : List ColumnPlan}
    (h : opts.rejectsUnknown = true → ∀ l, layout = some l →
      (extraKeys opts l fields).head? = some [] → ∀ key ∈ extraKeys opts l fields, key = []) :
    strictExtraFieldBy opts wide layout children fields =
      strictExtraFieldBy opts wide' layout children fields := by
  rcases layout with - | l
  · rfl
  · unfold strictExtraFieldBy
    dsimp only
    by_cases hstrict : opts.rejectsUnknown = true
    · have hempty := h hstrict l rfl
      have hsame : (extraKeys opts l fields).headD [] =
          ((extraKeys opts l fields).find? (· != [])).getD [] := by
        rcases hkeys : extraKeys opts l fields with - | ⟨key, keys⟩
        · rfl
        · rw [hkeys] at hempty
          by_cases hkey : key = []
          · subst hkey
            rw [find?_eq_none.mpr fun k hk => by simp [hempty rfl k hk]]
            rfl
          · rw [find?_cons_of_pos (by simpa using hkey)]
            rfl
      rw [if_pos hstrict, if_pos hstrict, hsame, ite_self, ite_self]
    · rw [if_neg hstrict, if_neg hstrict]

theorem convertSibling_congr {columns : List ColumnPlan}
    {convert convert' : Value → Except CoerceError Cell} (h : v ≠ .null → convert v = convert' v) :
    convertSibling opts columns index column v convert =
      convertSibling opts columns index column v convert' := by
  by_cases hnull : v = .null
  · rw [hnull, convertSibling_null, convertSibling_null]
  · have hconvert := h hnull
    unfold convertSibling
    split
    · rfl
    · rw [hconvert]

/-- **The loop over siblings**: what it does depends on the values of the sources and on their
conversion. -/
theorem convertSiblingsBy_congr {columns : List ColumnPlan}
    {source source' : Nat → ColumnPlan → Option Value} {found : ColumnPlan → Value}
    (hsource : ∀ i column, columns[i]? = some column → sourceValue (source i column) = found column)
    (hsource' : ∀ i column, columns[i]? = some column →
      sourceValue (source' i column) = found column)
    (hvalue : ∀ column ∈ columns, convertValueBy opts wide column (found column) =
      convertValueBy opts wide' column (found column)) :
    ∀ (rest : List ColumnPlan) (index : Nat), columns.drop index = rest →
      convertSiblingsBy opts wide columns source index rest =
        convertSiblingsBy opts wide' columns source' index rest
  | [], _, _ => rfl
  | column :: rest, index, hrest => by
    have hcolumn : columns[index]? = some column := by
      rw [← head?_drop, hrest, head?_cons]
    have hnext : columns.drop (index + 1) = rest := by
      rw [← drop_drop, hrest, drop_one, tail_cons]
    have hcell : convertSibling opts columns index column (sourceValue (source index column))
          (convertValueBy opts wide column) =
        convertSibling opts columns index column (sourceValue (source' index column))
          (convertValueBy opts wide' column) := by
      rw [hsource index column hcolumn, hsource' index column hcolumn]
      exact convertSibling_congr fun _ => hvalue column (mem_of_getElem? hcolumn)
    rw [convertSiblingsBy, convertSiblingsBy, hcell,
      convertSiblingsBy_congr hsource hsource' hvalue rest (index + 1) hnext]

theorem convertWrappedBy_congr : ∀ {children : List ColumnPlan},
    (∀ child ∈ children, ∀ v, AgreesOn opts child v →
      convertValueBy opts wide child v = convertValueBy opts wide' child v) →
    WrappedAgrees opts v children →
      convertWrappedBy opts wide v children = convertWrappedBy opts wide' v children
  | [], _, _ => rfl
  | child :: rest, hchildren, ⟨hchild, hrest⟩ => by
    have hcell : (if fieldNameMatchesOutput opts.toNameOptions opts.defaultKeyName child.name then
          convertValueBy opts wide child v else .ok (convertNull child)) =
        if fieldNameMatchesOutput opts.toNameOptions opts.defaultKeyName child.name then
          convertValueBy opts wide' child v else .ok (convertNull child) := by
      split
      · rename_i hkey
        exact hchildren child mem_cons_self v (hchild hkey)
      · rfl
    rw [convertWrappedBy, convertWrappedBy, hcell,
      convertWrappedBy_congr (fun c hc => hchildren c (mem_cons_of_mem child hc)) hrest]

theorem convertListBy_congr {value : Option ColumnPlan}
    (helem : ∀ elem, value = some elem → ∀ v, AgreesOn opts elem v →
      convertValueBy opts wide elem v = convertValueBy opts wide' elem v)
    (h : ElementsAgree opts v value) :
    convertListBy opts wide plan v value = convertListBy opts wide' plan v value := by
  rcases value with - | elem
  · rfl
  · have hsame := helem elem rfl
    rw [convertListBy.eq_def, convertListBy.eq_def]
    cases v with
    | array elements =>
      have helements : elements.mapM (convertValueBy opts wide elem) =
          elements.mapM (convertValueBy opts wide' elem) :=
        Lib.mapM_congr fun e he => hsame e (h e he)
      dsimp only
      rw [helements]
    | _ =>
      dsimp only
      rw [hsame _ h]

/-- **The conversion of a value does not depend on the strategy.** -/
theorem convertValueBy_strategy (plan : ColumnPlan) : ∀ v, AgreesOn opts plan v →
    convertValueBy opts wide plan v = convertValueBy opts wide' plan v := by
  induction plan with
  | plan plan ihc ihv =>
    intro v hv
    obtain ⟨_, kind, _, _, _, layout, children, value⟩ := plan
    dsimp only at ihc ihv
    rw [convertValueBy.eq_def, convertValueBy.eq_def]
    dsimp only
    cases kind with
    | scalar k => rfl
    | list =>
      have hlist : ElementsAgree opts v value := hv
      cases v with
      | null => rfl
      | _ =>
        dsimp only
        rw [convertListBy_congr ihv hlist]
    | struct =>
      cases v with
      | object fields =>
        obtain ⟨hlevel, hchildren⟩ : LevelAgrees opts layout children fields ∧
          ChildrenAgree opts fields children := hv
        have hsource : ∀ (other : Strategy) i child, children[i]? = some child →
            sourceValue (objectChildValueBy opts other layout children fields i child) =
              sourceValue (bestMatch opts false fields child) := fun other i child hchild =>
          sourceValue_objectChildValueBy hchild (hlevel.column i child hchild)
        have hsiblings := convertSiblingsBy_congr (hsource wide) (hsource wide')
          (fun child hchild => ihc child hchild _ (childrenAgree_mem hchildren child hchild))
          children 0 rfl
        dsimp only
        rw [hsiblings, strictExtraFieldBy_eq hlevel.strict]
      | null => rfl
      | _ =>
        have hwrapped := convertWrappedBy_congr ihc hv
        dsimp only
        rw [hwrapped]

/-- A row on which the strategies agree converts alike under both. -/
theorem convertCellsBy_strategy {plan : CompiledPlan} {row : RowRef}
    (h : checkStrictRow opts plan row = .ok () → RowAgrees opts plan row) :
    convertCellsBy opts wide plan row = convertCellsBy opts wide' plan row := by
  unfold convertCellsBy
  cases hstrict : checkStrictRow opts plan row with
  | error message => rfl
  | ok u =>
    have hrow := h hstrict
    have hsource : ∀ (other : Strategy) (i : Nat) column, plan.columns[i]? = some column →
        sourceValue (rootSourceBy opts other plan row i column) =
          if takesSourceFile row column then sourceValue (some (.string row.sourceFile))
          else sourceValue (bestMatch opts true row.fields column) := fun _ _ _ hcolumn =>
      sourceValue_rootSourceBy hcolumn hrow
    rw [convertSiblingsBy_congr (hsource wide) (hsource wide') (fun column hcolumn => ?_)
      plan.columns 0 rfl]
    apply convertValueBy_strategy
    split
    · exact agreesOn_string row.sourceFile column
    · rename_i hfile
      exact hrow.value column hcolumn (Bool.eq_false_iff.mpr hfile)

end Independence

/-- Columns of distinct names, none of them flattened or versioned, under their own layout. -/
structure PlainColumns (layout : Option StructLayout) (columns : List ColumnPlan) : Prop where
  layout : ∀ l, layout = some l → l = makeStructLayout (columns.map ColumnPlan.name)
  nodup : (columns.map ColumnPlan.name).Nodup
  unflattened : ∀ c ∈ columns, ¬ flattenedSuffix <:+ c.name ∧ ¬ sanitizedFlattenedSuffix <:+ c.name
  unversioned : ∀ c ∈ columns, variantFamilyBase c.name = c.name ∧ c.hasVariantSibling = false
  alone : ∀ c ∈ columns.zipIdx, ∀ sibling ∈ c.1.variantSiblingIndices, sibling = c.2

/-- A plan whose levels all have plain names. -/
inductive PlainPlan : ColumnPlan → Prop
  | plan {plan : ColumnPlan} (level : PlainColumns plan.layout plan.children)
      (child : ∀ c ∈ plan.children, PlainPlan c) (elem : ∀ e, plan.value = some e → PlainPlan e) :
      PlainPlan plan

section Plain

variable {opts : ConvertOptions} {layout : Option StructLayout} {columns : List ColumnPlan}

theorem fieldNameMatchesOutput_preserve (hpolicy : opts.fieldNamePolicy = .preserve)
    (key name : Bytes) : fieldNameMatchesOutput opts.toNameOptions key name = (name == key) := by
  have hpreserve : policyMatchesOutput .preserve key name = (name == key) := by
    unfold policyMatchesOutput policyBase
    by_cases hname : name = key <;> simp [hname]
  unfold fieldNameMatchesOutput
  split
  · rename_i h
    rw [h.2, beq_self_eq_true]
  · rw [hpolicy, hpreserve]

theorem unflattenedOutputName_eq_nil {name : Bytes} (h : ¬ flattenedSuffix <:+ name)
    (h' : ¬ sanitizedFlattenedSuffix <:+ name) : unflattenedOutputName name = [] := by
  rw [← isSuffixOf_iff_suffix] at h h'
  rw [unflattenedOutputName, if_neg h, if_neg h']

section

variable (hpolicy : opts.fieldNamePolicy = .preserve)

include hpolicy

section

variable (h : PlainColumns layout columns)

include h

theorem bestMatch_plain (hcolumn : column ∈ columns) (root : Bool) (fields : Row) :
    bestMatch opts root fields column =
      (fields.find? fun f => (column.name == f.1) && !f.2.containerIsEmpty).map Prod.snd := by
  obtain ⟨hflat, hflat'⟩ := h.unflattened column hcolumn
  have hversion := (h.unversioned column hcolumn).1
  have hsuffix := unflattenedOutputName_eq_nil hflat hflat'
  have hnone : fields.find? (fun _ => false) = none := find?_eq_none.mpr (by simp)
  unfold bestMatch
  simp only [fieldNameMatchesOutput_preserve hpolicy, hsuffix, hversion]
  simp [hnone]

theorem fieldMatchesColumn_plain (hcolumn : column ∈ columns) (key : Bytes) :
    fieldMatchesColumn opts key column = (column.name == key) := by
  obtain ⟨hflat, hflat'⟩ := h.unflattened column hcolumn
  have hvariant := (h.unversioned column hcolumn).2
  have hsuffix := unflattenedOutputName_eq_nil hflat hflat'
  unfold fieldMatchesColumn
  rw [fieldNameMatchesOutput_preserve hpolicy, hsuffix, hvariant]
  simp

theorem findPlannedField_plain (key : Bytes) :
    findPlannedField (makeStructLayout (columns.map ColumnPlan.name)) opts.toNameOptions key =
      (makeStructLayout (columns.map ColumnPlan.name)).find key := by
  have halias : (makeStructLayout (columns.map ColumnPlan.name)).findAlias key = none := by
    refine findAlias_eq_none.mpr fun _ name hname halias => ?_
    obtain ⟨column, hcolumn, rfl⟩ := mem_map.mp hname
    obtain ⟨hne, hunflattened | ⟨hbase, hdiff⟩⟩ := halias
    · obtain ⟨hflat, hflat'⟩ := h.unflattened column hcolumn
      rw [unflattenedOutputName_eq_nil hflat hflat'] at hunflattened
      exact hne hunflattened.symm
    · rw [(h.unversioned column hcolumn).1] at hbase
      exact hdiff hbase.symm
  have hflattened :
      findFlattenedCandidate (makeStructLayout (columns.map ColumnPlan.name)) key = none := by
    refine findFlattenedCandidate_eq_none.mpr ⟨fun hname => ?_, fun hname => ?_⟩
    · obtain ⟨column, hcolumn, hname⟩ := mem_map.mp hname
      exact (h.unflattened column hcolumn).1 ⟨key, hname.symm⟩
    · obtain ⟨column, hcolumn, hname⟩ := mem_map.mp hname
      exact (h.unflattened column hcolumn).2 ⟨key, hname.symm⟩
  rw [findPlannedField_eq, hpolicy, findPolicyField, halias, findGeneratedCandidates, if_pos rfl,
    hflattened, findSanitizedBase, if_pos rfl, or_none, or_none, or_none]

theorem routedTo_plain (hcolumn : columns[index]? = some column) (key : Bytes) :
    routedTo opts layout columns key index column = (column.name == key) := by
  have hmem := mem_of_getElem? hcolumn
  rcases hlayout : layout with - | l
  · exact fieldMatchesColumn_plain hpolicy h hmem key
  · obtain rfl := h.layout l hlayout
    have hname : (columns.map ColumnPlan.name)[index]? = some column.name := by
      rw [getElem?_map, hcolumn]
      rfl
    unfold routedTo
    dsimp only
    rw [findPlannedField_plain hpolicy h]
    by_cases hkey : column.name = key
    · rw [← hkey, find_of_nodup h.nodup hname]
      simp
    · rw [beq_false_of_ne hkey]
      rcases hfound : (makeStructLayout (columns.map ColumnPlan.name)).find key with - | planned
      · rfl
      · have hplanned := find_eq_some hfound
        have hne : planned ≠ index := by
          rintro rfl
          rw [hname] at hplanned
          exact hkey (Option.some.inj hplanned)
        have hsiblings : ((columns[planned]?.map ColumnPlan.variantSiblingIndices).getD []).contains
            index = false := by
          rcases hother : columns[planned]? with - | other
          · rfl
          · apply Bool.eq_false_iff.mpr
            intro hsibling
            have hmem := h.alone (other, planned) (mk_mem_zipIdx_iff_getElem?.mpr hother) index
              (contains_iff_mem.mp hsibling)
            exact hne hmem.symm
        dsimp only
        rw [hsiblings, beq_false_of_ne hne]
        rfl

theorem columnAgrees_plain (root : Bool) (fields : Row) (hcolumn : columns[index]? = some column) :
    ColumnAgrees opts root layout columns fields index column := by
  rw [ColumnAgrees, bestMatch_plain hpolicy h (mem_of_getElem? hcolumn), firstRouted]
  simp only [routedTo_plain hpolicy h hcolumn, Bool.and_comm]

end

theorem agreesOn_plain (hstrict : opts.rejectsUnknown = false)
    (h : PlainPlan plan) : ∀ v, AgreesOn opts plan v := by
  induction h with
  | @plan plan level child elem ihc ihe =>
    intro v
    obtain ⟨_, kind, _, _, _, _, _, value⟩ := plan
    dsimp only at level child elem ihc ihe
    cases kind with
    | scalar k => trivial
    | list =>
      show ElementsAgree opts v value
      cases value with
      | none => trivial
      | some e =>
        cases v with
        | array elements => exact fun element _ => ihe e rfl element
        | _ => exact ihe e rfl _
    | struct =>
      cases v with
      | object fields =>
        refine ⟨⟨fun index c hc => columnAgrees_plain hpolicy level false fields hc, ?_⟩,
          childrenAgree_of_forall fun c hc => ihc c hc⟩
        intro hreject
        rw [hstrict] at hreject
        cases hreject
      | _ => exact wrappedAgrees_of_forall fun c hc => ihc c hc _

/-- **On a plain plan the strategy never shows**: under the policy that keeps names and without
a strict contract, the strategies agree on every row. -/
theorem rowAgrees_plain (hstrict : opts.rejectsUnknown = false) {plan : CompiledPlan}
    (hroot : PlainColumns (some plan.rootLayout) plan.columns)
    (hcolumns : ∀ c ∈ plan.columns, PlainPlan c) (row : RowRef) : RowAgrees opts plan row where
  column := fun _ _ hcolumn _ => columnAgrees_plain hpolicy hroot true row.fields hcolumn
  value := fun column hcolumn _ => agreesOn_plain hpolicy hstrict (hcolumns column hcolumn) _

end

end Plain

/-- A column and its flattened form. -/
def flattenedPlan : CompiledPlan :=
  compilePlan ⟨[⟨bytes "a", some (.scalar .int64), true⟩,
    ⟨bytes "a_flattened", some (.scalar .utf8), true⟩]⟩

end SchemaSanitizer
