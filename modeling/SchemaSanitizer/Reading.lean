/-
SchemaSanitizer/Reading.lean

Which field of an object a column reads.  Both lookups of the source choose a
field by looking at keys and at emptiness, and at nothing else: fields with the
same profile are read at the same positions (`childFieldIndex_congr`).  Fields
that are empty containers are never chosen, so one more of them changes no value
that is read (`objectChildValue_insert`).

At the root the same lookups are used (`rootSource_eq`), except that a column
called `source_file` may take the name of the source file.
-/
import SchemaSanitizer.Rows

namespace SchemaSanitizer

open List

/-! ### Positions -/

/-- What the lookups see of a field: its key, and whether it is an empty
container. -/
def fieldProfile (f : Bytes × Value) : Bytes × Bool := (f.1, f.2.containerIsEmpty)

section Positions

variable (opts : ConvertOptions)

/-- The position of the field that `findField` finds. -/
def findFieldIndex (fields : Row) (key : Bytes) : Option Nat :=
  fields.findIdx? fun f =>
    fieldNameMatchesOutput opts.toNameOptions f.1 key && !f.2.containerIsEmpty

/-- The position of the field that a struct child reads. -/
def childFieldIndex (layout : Option StructLayout) (children : List ColumnPlan) (fields : Row)
    (index : Nat) (child : ColumnPlan) : Option Nat :=
  if shouldSnapshot children then
    (buildObjectSnapshot opts layout children fields)[index]?.getD none
  else
    (findFieldIndex opts fields child.name).or
      (if unflattenedOutputName child.name = [] then none
        else findFieldIndex opts fields (unflattenedOutputName child.name))

/-- The value at a position. -/
def valueAt (fields : Row) (position : Nat) : Option Value := fields[position]?.map Prod.snd

end Positions

variable {f : Bytes × Value}

section Reads

variable {opts : ConvertOptions} {layout : Option StructLayout} {children : List ColumnPlan}

theorem findField_eq_index (fields : Row) (key : Bytes) :
    findField opts fields key = (findFieldIndex opts fields key).bind (valueAt fields) := by
  rw [findField, findFieldIndex]
  induction fields with
  | nil => rfl
  | cons f fields ih =>
    rw [find?_cons, findIdx?_cons]
    split
    · rename_i h
      rw [h]
      rfl
    · rename_i h
      rw [h, ih, if_neg Bool.false_ne_true, Option.bind_map]
      rfl

theorem objectChildValue_eq (fields : Row) (index : Nat) (child : ColumnPlan) :
    objectChildValue opts layout children fields index child =
      (childFieldIndex opts layout children fields index child).bind (valueAt fields) := by
  rw [objectChildValue, childFieldIndex]
  split
  · rw [snapshotFind, Option.map_bind]
    rfl
  · rw [findUnflattened, findField_eq_index, findField_eq_index]
    -- the field that is found first stands somewhere, so the second lookup is not made
    rcases hfirst : findFieldIndex opts fields child.name with - | position
    · split <;> rfl
    · obtain ⟨hlt, -⟩ := findIdx?_eq_some_iff_getElem.mp hfirst
      simp [valueAt, hlt]

/-! ### Fields with the same profile -/

variable {fields fields' : Row}

theorem foldl_zipIdx_congr {σ : Type} {step : σ → (Bytes × Value) × Nat → σ}
    (hstep : ∀ s f g i, fieldProfile f = fieldProfile g → step s (f, i) = step s (g, i)) :
    ∀ {fields fields' : Row} (start : Nat) (s : σ),
    fields.map fieldProfile = fields'.map fieldProfile →
      (fields.zipIdx start).foldl step s = (fields'.zipIdx start).foldl step s
  | [], [], _, _, _ => rfl
  | f :: fields, g :: fields', start, s, h => by
    rw [map_cons, map_cons, cons.injEq] at h
    rw [zipIdx_cons, zipIdx_cons, foldl_cons, foldl_cons, hstep s f g start h.1]
    exact foldl_zipIdx_congr hstep (start + 1) _ h.2

theorem routeField_congr {π : Type} {layout : StructLayout} {g : Bytes × Value}
    (h : fieldProfile f = fieldProfile g) (indices : List (Option π)) (x : π) :
    routeField opts layout children indices (f, x) =
    routeField opts layout children indices (g, x) := by
  obtain ⟨hkey, hempty⟩ := Prod.mk.inj h
  simp only [routeField, hkey, hempty]

theorem offerField_congr {π : Type} {g : Bytes × Value} (h : fieldProfile f = fieldProfile g)
    (indices : List (Option π)) (x : π) :
    offerField opts children indices (f, x) = offerField opts children indices (g, x) := by
  obtain ⟨hkey, hempty⟩ := Prod.mk.inj h
  simp only [offerField, hkey, hempty]

section

variable (h : fields.map fieldProfile = fields'.map fieldProfile)

include h

theorem findFieldIndex_congr (key : Bytes) :
    findFieldIndex opts fields key = findFieldIndex opts fields' key := by
  have hmap : ∀ fs : Row, findFieldIndex opts fs key = (fs.map fieldProfile).findIdx? fun p =>
      fieldNameMatchesOutput opts.toNameOptions p.1 key && !p.2 := by
    intro fs
    rw [findIdx?_map]
    rfl
  rw [hmap, hmap, h]

/-- **Fields with the same profile are read at the same positions.** -/
theorem childFieldIndex_congr (index : Nat) (child : ColumnPlan) :
    childFieldIndex opts layout children fields index child =
      childFieldIndex opts layout children fields' index child := by
  have hsnapshot : buildObjectSnapshot opts layout children fields =
      buildObjectSnapshot opts layout children fields' := by
    cases layout with
    | none => exact foldl_zipIdx_congr (fun s f g i hfg => offerField_congr hfg s i) 0 _ h
    | some layout => exact foldl_zipIdx_congr (fun s f g i hfg => routeField_congr hfg s i) 0 _ h
  rw [childFieldIndex, childFieldIndex, hsnapshot, findFieldIndex_congr h, findFieldIndex_congr h]

theorem extraKeys_congr (layout : StructLayout) :
    extraKeys opts layout fields = extraKeys opts layout fields' := by
  have hmap : ∀ fs : Row, extraKeys opts layout fs = ((fs.map fieldProfile).filter fun p =>
      !p.2 && !matchesPlannedField layout opts.toNameOptions p.1).map Prod.fst := by
    intro fs
    rw [filter_map, map_map]
    rfl
  rw [hmap, hmap, h]

theorem strictExtraField_congr :
    strictExtraField opts layout children fields =
    strictExtraField opts layout children fields' := by
  cases layout with
  | none => rfl
  | some layout => simp only [strictExtraField, findStrictExtraField, extraKeys_congr h]

theorem hasUnplannedField_congr (layout : StructLayout) :
    hasUnplannedField opts layout fields = hasUnplannedField opts layout fields' := by
  have hmap : ∀ fs : Row, hasUnplannedField opts layout fs = ((fs.map fieldProfile).find? fun p =>
      !matchesPlannedField layout opts.toNameOptions p.1 && !p.2).map Prod.fst := by
    intro fs
    rw [find?_map, Option.map_map]
    rfl
  rw [hmap, hmap, h]

end

end Reads

/-! ### One more empty container -/

variable {post pre : Row}

/-- Positions after a field was inserted at position `n`. -/
def shiftFrom (n i : Nat) : Nat := if i < n then i else i + 1

section Insert

variable {opts : ConvertOptions} {layout : StructLayout} {children : List ColumnPlan}

theorem assignColumnField_map {π ρ : Type} (g : π → ρ) (indices : List (Option π)) (column : Nat)
    (x : π) : (assignColumnField indices column x).map (Option.map g) =
      assignColumnField (indices.map (Option.map g)) column (g x) := by
  simp only [assignColumnField, getElem?_map]
  rcases indices[column]? with - | - | y
  · rfl
  · simp [map_set]
  · rfl

theorem routeField_map {π ρ : Type} (g : π → ρ) (indices : List (Option π)) (f : Bytes × Value)
    (x : π) : (routeField opts layout children indices (f, x)).map (Option.map g) =
      routeField opts layout children (indices.map (Option.map g)) (f, g x) := by
  simp only [routeField]
  split
  · rfl
  · split
    · rfl
    · rw [← assignColumnField_map]
      refine (foldl_hom (map (Option.map g)) fun indices sibling => ?_).symm
      split
      · rw [assignColumnField_map]
      · rfl

theorem foldl_routeField_map {π ρ : Type} (g : π → ρ) :
    ∀ (l : List ((Bytes × Value) × π)) (indices : List (Option π)),
    (l.foldl (routeField opts layout children) indices).map (Option.map g) =
      (l.map (Prod.map id g)).foldl (routeField opts layout children) (indices.map (Option.map g))
  | [], _ => rfl
  | (f, x) :: l, indices => by
    rw [foldl_cons, foldl_routeField_map g l, routeField_map]
    rfl

theorem zipIdx_map_shift (fields : Row) (n start : Nat) (h : n ≤ start) :
    (fields.zipIdx start).map (Prod.map id (shiftFrom n)) = fields.zipIdx (start + 1) := by
  induction fields generalizing start with
  | nil => rfl
  | cons f fields ih =>
    rw [zipIdx_cons, zipIdx_cons, map_cons, ih (start + 1) (by omega)]
    simp [shiftFrom, Nat.not_lt.mpr h]

theorem zipIdx_map_keep (fields : Row) (n start : Nat) (h : start + fields.length ≤ n) :
    (fields.zipIdx start).map (Prod.map id (shiftFrom n)) = fields.zipIdx start := by
  induction fields generalizing start with
  | nil => rfl
  | cons f fields ih =>
    rw [length_cons] at h
    rw [zipIdx_cons, map_cons, ih (start + 1) (by omega)]
    simp [shiftFrom, show start < n by omega]

theorem buildSnapshot_insert (hf : f.2.containerIsEmpty = true) :
    buildSnapshot opts layout children (pre ++ f :: post) =
      (buildSnapshot opts layout children (pre ++ post)).map
      (Option.map (shiftFrom pre.length)) := by
  have hskip : ∀ (indices : List (Option Nat)) i,
      routeField opts layout children indices (f, i) = indices := by
    intro indices i
    simp [routeField, hf]
  have hnone : (children.map fun _ => (none : Option Nat)).map (Option.map (shiftFrom pre.length)) =
      children.map fun _ => none := by
    rw [map_map]
    rfl
  rw [buildSnapshot, buildSnapshot, foldl_routeField_map, zipIdx_append, zipIdx_append,
    foldl_append, map_append, foldl_append, zipIdx_cons, foldl_cons, hskip,
    zipIdx_map_shift post _ _ (by omega), zipIdx_map_keep pre _ _ (by omega), hnone, Nat.zero_add]

theorem findFieldIndex_insert (hf : f.2.containerIsEmpty = true) (key : Bytes) :
    findFieldIndex opts (pre ++ f :: post) key =
      (findFieldIndex opts (pre ++ post) key).map (shiftFrom pre.length) := by
  simp only [findFieldIndex, findIdx?_append, findIdx?_cons, hf, Bool.not_true,
    Bool.and_false, Bool.false_eq_true, if_false]
  rcases hpre : findIdx? _ pre with - | i
  · rcases hpost : findIdx? _ post with - | j
    · simp
    · simp [shiftFrom, Nat.add_right_comm]
  · obtain ⟨hlt, -⟩ := findIdx?_eq_some_iff_getElem.mp hpre
    simp [shiftFrom, hlt]

theorem valueAt_insert (pre post : Row) (f : Bytes × Value) (i : Nat) :
    valueAt (pre ++ f :: post) (shiftFrom pre.length i) = valueAt (pre ++ post) i := by
  rw [valueAt, valueAt, shiftFrom]
  split
  · rename_i h
    rw [getElem?_append_left h, getElem?_append_left h]
  · rename_i h
    have hsub : i + 1 - pre.length = i - pre.length + 1 := by omega
    rw [getElem?_append_right (by omega), getElem?_append_right (by omega), hsub,
      getElem?_cons_succ]

/-- **One more empty container changes no value that is read.** -/
theorem objectChildValue_insert
    (hf : f.2.containerIsEmpty = true) (index : Nat) (child : ColumnPlan) :
    objectChildValue opts (some layout) children (pre ++ f :: post) index child =
      objectChildValue opts (some layout) children (pre ++ post) index child := by
  have hindex : childFieldIndex opts (some layout) children (pre ++ f :: post) index child =
      (childFieldIndex opts (some layout) children (pre ++ post) index child).map
        (shiftFrom pre.length) := by
    simp only [childFieldIndex, buildObjectSnapshot, buildSnapshot_insert hf,
      findFieldIndex_insert hf, getElem?_map]
    split
    · rcases (buildSnapshot opts layout children (pre ++ post))[index]? <;> rfl
    · split <;> simp [Option.map_or]
  rw [objectChildValue_eq, objectChildValue_eq, hindex, Option.bind_map]
  congr 1
  funext i
  exact valueAt_insert pre post f i

end Insert

/-! ### The root -/

/-- The root columns read a row as the children of a struct read an object.  The
lookup by family base is never made: a plan with a version family uses the
snapshot. -/
theorem rootSource_eq {opts : ConvertOptions} {plan : CompiledPlan} (row : RowRef) (index : Nat)
    {column : ColumnPlan} (hcolumn : column ∈ plan.columns) :
    rootSource opts plan row index column =
      if takesSourceFile row column then some (.string row.sourceFile)
      else objectChildValue opts (some plan.rootLayout) plan.columns row.fields index column := by
  rw [rootSource, objectChildValue]
  split
  · rfl
  · split
    · rfl
    · rename_i hsnapshot
      have hvariant : column.hasVariantSibling = false := by
        simp only [shouldSnapshot, Bool.or_eq_true, any_eq_true, not_or, not_exists, not_and,
          Bool.not_eq_true] at hsnapshot
        exact hsnapshot.2 column hcolumn
      simp [lookupSource, hvariant]

end SchemaSanitizer
