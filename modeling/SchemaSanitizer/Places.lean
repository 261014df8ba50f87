/-
SchemaSanitizer/Places.lean

Where the values of rows stand.  `rowPlaces` lists the path and the shape of
every value of a row that inference reads, `rowMarks` those of them that have
evidence: a scalar does, and so does a container with an element or field
that does.  Null values and empty containers stand nowhere; a flattened field
stands as a scalar under its `_flattened` key.

The first pass of inference is then a set union (`scanRows_shapes`): the marked
paths are the paths of the arrays and objects in `rowMarks`.
-/
import SchemaSanitizer.Inference

namespace SchemaSanitizer

open List

/-- A path and the shape of a value there. -/
abbrev Place := Path × ValueShape

/-- The marks of the parts of a container, with its own mark if there is one. -/
def closeMarks (path : Path) (shape : ValueShape) (marks : List Place) : List Place :=
  if marks = [] then [] else marks ++ [(path, shape)]

mutual

/-- The places with evidence in a value at a path. -/
def valueMarks (opts : Options) : Value → Path → DepthState → List Place
  | .null, _, _ => []
  | .array elements, path, depth =>
    closeMarks path .array (elementMarks opts elements (listMarker :: path) depth)
  | .object fields, path, depth => closeMarks path .object (fieldMarks opts fields path depth)
  | _, path, _ => [(path, .scalar)]

/-- The places with evidence in the elements of an array. -/
def elementMarks (opts : Options) : List Value → Path → DepthState → List Place
  | [], _, _ => []
  | v :: vs, path, depth =>
    valueMarks opts v path (enterValueDepth depth v) ++ elementMarks opts vs path depth

/-- The places with evidence in the fields of an object or a row. -/
def fieldMarks (opts : Options) : List (Bytes × Value) → Path → DepthState → List Place
  | [], _, _ => []
  | (key, v) :: fs, path, depth =>
    (if v.containerIsEmpty then []
      else if shouldFlattenNested opts depth v then [((key ++ flattenedSuffix) :: path, .scalar)]
      else valueMarks opts v (key :: path) (enterValueDepth depth v)) ++
    fieldMarks opts fs path depth

end

mutual

/-- The places of the values in a value at a path. -/
def valuePlaces (opts : Options) : Value → Path → DepthState → List Place
  | .null, _, _ => []
  | .array elements, path, depth =>
    if elements = [] then []
    else (path, .array) :: elementPlaces opts elements (listMarker :: path) depth
  | .object fields, path, depth =>
    if fields = [] then [] else (path, .object) :: fieldPlaces opts fields path depth
  | _, path, _ => [(path, .scalar)]

/-- The places of the values in the elements of an array. -/
def elementPlaces (opts : Options) : List Value → Path → DepthState → List Place
  | [], _, _ => []
  | v :: vs, path, depth =>
    valuePlaces opts v path (enterValueDepth depth v) ++ elementPlaces opts vs path depth

/-- The places of the values in the fields of an object or a row. -/
def fieldPlaces (opts : Options) : List (Bytes × Value) → Path → DepthState → List Place
  | [], _, _ => []
  | (key, v) :: fs, path, depth =>
    (if v.containerIsEmpty then []
      else if shouldFlattenNested opts depth v then [((key ++ flattenedSuffix) :: path, .scalar)]
      else valuePlaces opts v (key :: path) (enterValueDepth depth v)) ++
    fieldPlaces opts fs path depth

end

/-- The places with evidence in a row. -/
def rowMarks (opts : Options) (row : Row) : List Place := fieldMarks opts row [] {}

/-- The places of the values in a row. -/
def rowPlaces (opts : Options) (row : Row) : List Place := fieldPlaces opts row [] {}

/-! ### The marked paths -/

variable {marks : List Place} {path : Path}

/-- The paths of one shape among places. -/
def pathsOf (shape : ValueShape) (marks : List Place) : Finset Path :=
  ((marks.filter (·.2 = shape)).map Prod.fst).toFinset

/-- Shapes with the arrays and objects among the places marked. -/
def Shapes.add (shapes : Shapes) (marks : List Place) : Shapes :=
  ⟨shapes.lists ∪ pathsOf .array marks, shapes.structs ∪ pathsOf .object marks⟩

@[simp] theorem mem_pathsOf {shape : ValueShape} :
    path ∈ pathsOf shape marks ↔ (path, shape) ∈ marks := by
  simp only [pathsOf, mem_toFinset, mem_map, mem_filter, decide_eq_true_eq]
  constructor
  · rintro ⟨⟨p, c⟩, ⟨hmem, rfl⟩, rfl⟩
    exact hmem
  · intro h
    exact ⟨_, ⟨h, rfl⟩, rfl⟩

@[ext] theorem Shapes.ext_mem {s t : Shapes} (hl : ∀ p, p ∈ s.lists ↔ p ∈ t.lists)
    (hs : ∀ p, p ∈ s.structs ↔ p ∈ t.structs) : s = t := by
  cases s
  cases t
  simp only [Shapes.mk.injEq]
  exact ⟨Finset.ext hl, Finset.ext hs⟩

section Add

variable {shapes : Shapes} {marks more : List Place} {path : Path}

@[simp] theorem Shapes.mem_lists_add :
    path ∈ (shapes.add marks).lists ↔ path ∈ shapes.lists ∨ (path, .array) ∈ marks := by
  simp [Shapes.add]

@[simp] theorem Shapes.mem_structs_add :
    path ∈ (shapes.add marks).structs ↔ path ∈ shapes.structs ∨ (path, .object) ∈ marks := by
  simp [Shapes.add]

@[simp] theorem Shapes.add_nil : shapes.add [] = shapes := by
  ext p <;> simp

@[simp] theorem Shapes.add_add : (shapes.add marks).add more = shapes.add (marks ++ more) := by
  ext p <;> simp [or_assoc]

@[simp] theorem Shapes.add_scalar_cons :
    shapes.add ((path, .scalar) :: marks) = shapes.add marks := by
  ext p <;> simp

theorem Shapes.markList_add :
    (shapes.add marks).markList path (!marks.isEmpty) =
    shapes.add (closeMarks path .array marks) := by
  unfold Shapes.markList closeMarks
  rcases marks with - | ⟨m, ms⟩
  · simp
  · ext p
    · simp only [isEmpty_cons, Bool.not_false, if_true, reduceCtorEq, if_false,
        Finset.mem_insert, Shapes.mem_lists_add, mem_append, mem_singleton,
        Prod.mk.injEq, and_true]
      tauto
    · simp

theorem Shapes.markStruct_add :
    (shapes.add marks).markStruct path (!marks.isEmpty) =
      shapes.add (closeMarks path .object marks) := by
  unfold Shapes.markStruct closeMarks
  rcases marks with - | ⟨m, ms⟩
  · simp
  · ext p
    · simp
    · simp only [isEmpty_cons, Bool.not_false, if_true, reduceCtorEq, if_false,
        Finset.mem_insert, Shapes.mem_structs_add, mem_append, mem_singleton,
        Prod.mk.injEq, and_true]
      tauto

end Add

variable {opts : Options}

theorem not_isEmpty_append (a b : List Place) :
    (!(a ++ b).isEmpty) = (!a.isEmpty || !b.isEmpty) := by
  rcases a with - | ⟨m, ms⟩ <;> simp

theorem isEmpty_closeMarks (path : Path) (shape : ValueShape) (marks : List Place) :
    (closeMarks path shape marks).isEmpty = marks.isEmpty := by
  unfold closeMarks
  rcases marks with - | ⟨m, ms⟩ <;> simp

theorem scanShapesElements_eq {vs : List Value}
    (h : ∀ v ∈ vs, ∀ path depth shapes, scanShapesValue opts v path depth shapes =
      (shapes.add (valueMarks opts v path depth), !(valueMarks opts v path depth).isEmpty))
    (path : Path) (depth : DepthState) : ∀ shapes, scanShapesElements opts vs path depth shapes =
      (shapes.add (elementMarks opts vs path depth),
        !(elementMarks opts vs path depth).isEmpty) := by
  induction vs with
  | nil => intro shapes; simp [scanShapesElements, elementMarks]
  | cons v vs ih =>
    intro shapes
    have ih := ih fun w hw => h w (mem_cons_of_mem v hw)
    simp [scanShapesElements, elementMarks, h v mem_cons_self, ih, not_isEmpty_append]

theorem scanShapesFields_eq {fs : List (Bytes × Value)}
    (h : ∀ f ∈ fs, ∀ path depth shapes, scanShapesValue opts f.2 path depth shapes =
      (shapes.add (valueMarks opts f.2 path depth), !(valueMarks opts f.2 path depth).isEmpty))
    (path : Path) (depth : DepthState) : ∀ shapes, scanShapesFields opts fs path depth shapes =
      (shapes.add (fieldMarks opts fs path depth), !(fieldMarks opts fs path depth).isEmpty) := by
  induction fs with
  | nil => intro shapes; simp [scanShapesFields, fieldMarks]
  | cons f fs ih =>
    intro shapes
    obtain ⟨key, v⟩ := f
    have ih := ih fun g hg => h g (mem_cons_of_mem _ hg)
    have hv := h _ mem_cons_self
    simp only [scanShapesFields, fieldMarks, hv, ih]
    split_ifs <;> simp [not_isEmpty_append]

theorem scanShapesValue_eq (opts : Options) (v : Value) : ∀ path depth shapes,
    scanShapesValue opts v path depth shapes =
      (shapes.add (valueMarks opts v path depth), !(valueMarks opts v path depth).isEmpty) := by
  induction v with
  | null | bool | int | float | string =>
    intro path depth shapes; simp [scanShapesValue, valueMarks]
  | array vs ih =>
    intro path depth shapes
    simp only [scanShapesValue, valueMarks, scanShapesElements_eq ih, Shapes.markList_add,
      isEmpty_closeMarks]
  | object fs ih =>
    intro path depth shapes
    simp only [scanShapesValue, valueMarks, scanShapesFields_eq ih, Shapes.markStruct_add,
      isEmpty_closeMarks]

theorem scanShapesRow_eq (opts : Options) (shapes : Shapes) (row : Row) :
    scanShapesRow opts shapes row = shapes.add (rowMarks opts row) := by
  rw [scanShapesRow, scanShapesFields_eq fun f _ => scanShapesValue_eq opts f.2]
  rfl

/-- **The marked paths after rows.** -/
theorem scanRows_shapes (opts : Options) (rows : List Row) : ∀ ctx : InferenceContext,
    (scanRows opts ctx rows).shapes = ctx.shapes.add (rows.flatMap (rowMarks opts)) := by
  induction rows with
  | nil => intro ctx; simp [scanRows]
  | cons row rows ih =>
    intro ctx
    show (scanRows opts (scanRow opts ctx row) rows).shapes = _
    rw [ih, scanRow, scanShapesRow_eq]
    simp

/-! ### The marks of a container -/

variable {shape : ValueShape}

theorem mem_closeMarks {m : Place} (h : m ∈ closeMarks path shape marks) :
    marks ≠ [] ∧ (m ∈ marks ∨ m = (path, shape)) := by
  unfold closeMarks at h
  split_ifs at h with hnil
  · cases h
  · exact ⟨hnil, (mem_append.mp h).imp_right mem_singleton.mp⟩

theorem subset_closeMarks (path : Path) (shape : ValueShape) (marks : List Place) :
    marks ⊆ closeMarks path shape marks := by
  unfold closeMarks
  split_ifs with hnil
  · rw [hnil]
    exact nil_subset _
  · exact subset_append_left _ _

theorem self_mem_closeMarks (h : marks ≠ []) : (path, shape) ∈ closeMarks path shape marks := by
  simp [closeMarks, h]

end SchemaSanitizer
