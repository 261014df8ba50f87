/-
SchemaSanitizer/Plan.lean

Compiled plans (`sanitize/planning/plan.hh`, `planning/plan.cpp`).  A logical
schema is compiled to one `ColumnPlan` per field, recursively, with the layout
that routes source keys to the fields of a struct.  A second pass groups
sibling columns into version families: columns whose names have the same
family base (`a`, `a_v2_integer`, ...).

The second pass does not reach everything.  It goes from a column to its
children, and from a list to the children of its element, but not from a list
to the element of its element: in a list of lists of structs the innermost
columns are never marked as siblings.
-/
import SchemaSanitizer.Layout
import SchemaSanitizer.LogicalType

namespace SchemaSanitizer

/-! ### Column plans -/

/-- `LogicalKind`. -/
inductive LogicalKind
  | scalar (kind : ScalarKind)
  | struct
  | list
  deriving DecidableEq, Repr

/-- `ColumnPlan`.  The interned `path_id` is the path itself, outermost name
first; of the logical type only the kind is read after compilation. -/
structure ColumnPlan where
  name : Bytes
  kind : LogicalKind
  path : List Bytes
  hasVariantSibling : Bool
  variantSiblingIndices : List Nat
  layout : Option StructLayout
  children : List ColumnPlan
  value : Option ColumnPlan

/-- The plan of a column without parts. -/
def ColumnPlan.leaf (name : Bytes) (kind : LogicalKind) (path : List Bytes) : ColumnPlan where
  name := name
  kind := kind
  path := path
  hasVariantSibling := false
  variantSiblingIndices := []
  layout := none
  children := []
  value := none

/-- Induction over column plans: a plan is reached from its children and from
the plan of its elements. -/
@[induction_eliminator]
theorem ColumnPlan.ind {motive : ColumnPlan → Prop}
    (plan : ∀ plan : ColumnPlan, (∀ child ∈ plan.children, motive child) →
      (∀ elem, plan.value = some elem → motive elem) → motive plan) : ∀ p, motive p := by
  intro p
  refine @ColumnPlan.rec motive (fun ps => ∀ p ∈ ps, motive p) (fun o => ∀ p, o = some p → motive p)
    ?mk ?nil ?cons ?none ?some p
  case mk =>
    intro name kind path has indices layout children value ihc ihv
    exact plan _ ihc ihv
  case nil => simp
  case cons =>
    intro p ps ihp ihps q hq
    rcases List.mem_cons.mp hq with rfl | hq
    · exact ihp
    · exact ihps q hq
  case none => simp
  case some =>
    rintro p ih _ ⟨rfl⟩
    exact ih

/-! ### Compilation -/

/-- The path component of list elements. -/
def planListMarker : Bytes := bytes "[]"

mutual

/-- `compile_column` for a typed field whose path is known. -/
def compileType (name : Bytes) (path : List Bytes) : LogicalType → ColumnPlan
  | .scalar k => .leaf name (.scalar k) path
  | .struct fields =>
    { ColumnPlan.leaf name .struct path with
      layout := some (makeStructLayout (fields.map FieldOf.name))
      children := compileFields path fields }
  | .list value => { ColumnPlan.leaf name .list path with value := compileElement path value }

/-- The element plan of a list: a field called `item`. -/
def compileElement (path : List Bytes) : Option LogicalType → Option ColumnPlan
  | none => none
  | some t => some (compileType (bytes "item") (path ++ [planListMarker]) t)

/-- `compile_column` for a field; a field without a type has kind null. -/
def compileTyped (name : Bytes) (path : List Bytes) : Option LogicalType → ColumnPlan
  | none => .leaf name (.scalar .null) path
  | some t => compileType name path t

@[inherit_doc compileTyped]
def compileColumn (parentPath : List Bytes) : LogicalField → ColumnPlan
  | ⟨name, type, _⟩ => compileTyped name (parentPath ++ [name]) type

/-- The plans of sibling fields. -/
def compileFields (parentPath : List Bytes) : List LogicalField → List ColumnPlan
  | [] => []
  | f :: fs => compileColumn parentPath f :: compileFields parentPath fs

end

/-- The positions of the columns in the version family of a name. -/
def variantFamily (columns : List ColumnPlan) (name : Bytes) : List Nat :=
  (columns.zipIdx.filter fun c => variantFamilyBase c.1.name == variantFamilyBase name).map Prod.snd

/-- `annotate_variant_siblings` for one sibling vector. -/
def markFamilies (columns : List ColumnPlan) : List ColumnPlan :=
  columns.map fun column =>
    { column with
      hasVariantSibling := decide (1 < (variantFamily columns column.name).length)
      variantSiblingIndices := variantFamily columns column.name }

mutual

/-- The recursion of `annotate_variant_siblings`, for a vector of columns. -/
def annotateParts : List ColumnPlan → List ColumnPlan
  | [] => []
  | column :: columns => annotateColumn column :: annotateParts columns

/-- The children of a column, and those of its element, are annotated. -/
def annotateColumn : ColumnPlan → ColumnPlan
  | ⟨name, kind, path, has, indices, layout, children, value⟩ =>
    ⟨name, kind, path, has, indices, layout, markFamilies (annotateParts children),
      annotateElement value⟩

/-- The element itself is not annotated, and neither is its own element. -/
def annotateElement : Option ColumnPlan → Option ColumnPlan
  | none => none
  | some ⟨name, kind, path, has, indices, layout, children, value⟩ =>
    some ⟨name, kind, path, has, indices, layout, markFamilies (annotateParts children), value⟩

end

/-- `annotate_variant_siblings`. -/
def annotateVariantSiblings (columns : List ColumnPlan) : List ColumnPlan :=
  markFamilies (annotateParts columns)

/-- `CompiledPlan`. -/
structure CompiledPlan where
  rootLayout : StructLayout
  columns : List ColumnPlan

/-- `compile_plan`. -/
def compilePlan (schema : LogicalSchema) : CompiledPlan where
  rootLayout := makeStructLayout (schema.fields.map FieldOf.name)
  columns := annotateVariantSiblings (compileFields [] schema.fields)

end SchemaSanitizer
