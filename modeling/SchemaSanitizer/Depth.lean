/-
SchemaSanitizer/Depth.lean

Nesting depth of the inferred schema (`core/logical_schema.cc`).  The limits
`arrow_max_depth` and `parquet_max_depth` are checked while a row is scanned:
a nested field beyond them is flattened.  The schema is read from statistics
of many rows, so the limits have to survive their combination.

They do as long as no container is wrapped (`inferRows_depth_le`): then every
list and struct of the statistics stands at a path that is marked so, and a
marked path is at most as deep as the value that marked it.  The branches that
wrap do not check the limits.  An object that comes to a path known as a list
becomes an element, one level deeper (`inferRows_too_deep`); in the other order
the object is forgotten.
-/
import SchemaSanitizer.Places

namespace SchemaSanitizer

open List

/-! ### Depth of types -/

mutual

/-- Containers along the deepest branch of a type; a list counts `listLevel`. -/
def nestingDepth (listLevel : Nat) : LogicalType → Nat
  | .scalar _ => 0
  | .struct fields => 1 + nestingDepthFields listLevel fields
  | .list value => listLevel + nestingDepthValue listLevel value

/-- The depth of an optional type. -/
def nestingDepthValue (listLevel : Nat) : Option LogicalType → Nat
  | none => 0
  | some t => nestingDepth listLevel t

/-- The depth of a field's type. -/
def nestingDepthField (listLevel : Nat) : LogicalField → Nat
  | ⟨_, type, _⟩ => nestingDepthValue listLevel type

/-- The largest depth of a field. -/
def nestingDepthFields (listLevel : Nat) : List LogicalField → Nat
  | [] => 0
  | f :: fs => max (nestingDepthField listLevel f) (nestingDepthFields listLevel fs)

end

/-- `arrow_depth_type`. -/
def arrowDepthType : LogicalType → Nat := nestingDepth 1

/-- `parquet_depth_type`: a list is not a level of its own. -/
def parquetDepthType : LogicalType → Nat := nestingDepth 0

/-- `arrow_schema_depth`. -/
def arrowSchemaDepth (schema : LogicalSchema) : Nat := nestingDepthFields 1 schema.fields

/-- `parquet_schema_depth`. -/
def parquetSchemaDepth (schema : LogicalSchema) : Nat := nestingDepthFields 0 schema.fields

theorem nestingDepthFields_le {listLevel bound : Nat} : ∀ {fields : List LogicalField},
    (∀ f ∈ fields, nestingDepthField listLevel f ≤ bound) →
    nestingDepthFields listLevel fields ≤ bound
  | [], _ => Nat.zero_le _
  | f :: fs, h => by
    rw [nestingDepthFields]
    exact max_le (h f mem_cons_self)
      (nestingDepthFields_le fun g hg => h g (mem_cons_of_mem f hg))

theorem nestingDepthFields_fieldsOfTypes_le {listLevel bound : Nat} {names : List Bytes}
    {types : List (Bytes × LogicalType)} (h : ∀ t ∈ types, nestingDepth listLevel t.2 ≤ bound) :
    nestingDepthFields listLevel (fieldsOfTypes names types) ≤ bound := by
  apply nestingDepthFields_le
  intro f hf
  rw [fieldsOfTypes, ← map_uncurry_zip_eq_zipWith, mem_map] at hf
  obtain ⟨⟨name, t⟩, hmem, rfl⟩ := hf
  exact h t (of_mem_zip hmem).2

/-! ### Depth of paths -/

variable {marks : List Place} {depth : DepthState} {path : Path} {vs : List Value}
  {fs : List (Bytes × Value)}

/-- A way to count depth: the Arrow count or the Parquet count. -/
structure DepthCount where
  listLevel : Nat
  listLevel_le : listLevel ≤ 1
  count : DepthState → Nat
  limit : Options → Nat
  count_root : count {} = 0
  count_array : ∀ depth, count depth.enterArray = count depth + listLevel
  count_object : ∀ depth, count depth.enterObject = count depth + 1
  count_le : ∀ opts depth, opts.beyond depth = false → count depth ≤ limit opts

/-- The count of `arrow_schema_depth`. -/
def arrowCount : DepthCount where
  listLevel := 1
  listLevel_le := le_rfl
  count := DepthState.arrow
  limit := Options.arrowMaxDepth
  count_root := rfl
  count_array _ := rfl
  count_object _ := rfl
  count_le opts depth h := by
    simp only [Options.beyond, Bool.or_eq_false_iff, decide_eq_false_iff_not] at h
    omega

/-- The count of `parquet_schema_depth`. -/
def parquetCount : DepthCount where
  listLevel := 0
  listLevel_le := Nat.zero_le 1
  count := DepthState.parquet
  limit := Options.parquetMaxDepth
  count_root := rfl
  count_array _ := rfl
  count_object _ := rfl
  count_le opts depth h := by
    simp only [Options.beyond, Bool.or_eq_false_iff, decide_eq_false_iff_not] at h
    omega

/-- The depth of a path: one for every component, except that a path marked as a list counts
as a list. -/
def pathDepth (c : DepthCount) (shapes : Shapes) : Path → Nat
  | [] => 0
  | key :: path =>
    pathDepth c shapes path + if key :: path ∈ shapes.lists then c.listLevel else 1

section MarkedPaths

variable {opts : Options} (c : DepthCount) {shapes : Shapes}

variable {key : Bytes} {n : Nat}

/-- All marks of a list of places were made. -/
def Shapes.Has (shapes : Shapes) (marks : List Place) : Prop :=
  shapes.add marks = shapes

theorem Shapes.Has.list {path : Path} (h : shapes.Has marks)
    (hm : (path, .array) ∈ marks) : path ∈ shapes.lists := by
  rw [← h]
  exact Shapes.mem_lists_add.mpr (.inr hm)

theorem Shapes.Has.struct {path : Path} (h : shapes.Has marks)
    (hm : (path, .object) ∈ marks) : path ∈ shapes.structs := by
  rw [← h]
  exact Shapes.mem_structs_add.mpr (.inr hm)

theorem Shapes.has_iff : shapes.Has marks ↔
    (∀ p, (p, ValueShape.array) ∈ marks → p ∈ shapes.lists) ∧
      ∀ p, (p, ValueShape.object) ∈ marks → p ∈ shapes.structs := by
  constructor
  · intro h
    exact ⟨fun p => h.list, fun p => h.struct⟩
  · rintro ⟨hl, hs⟩
    ext p
    · simpa using hl p
    · simpa using hs p

theorem Shapes.Has.mono {part : List Place} (h : shapes.Has marks) (hsub : part ⊆ marks) :
    shapes.Has part :=
  Shapes.has_iff.mpr ⟨fun _ hp => h.list (hsub hp), fun _ hp => h.struct (hsub hp)⟩

theorem Shapes.has_add (shapes : Shapes) (marks : List Place) : (shapes.add marks).Has marks :=
  Shapes.has_iff.mpr ⟨fun _ hp => Shapes.mem_lists_add.mpr (.inr hp),
    fun _ hp => Shapes.mem_structs_add.mpr (.inr hp)⟩

theorem pathDepth_list (h : key :: path ∈ shapes.lists) :
    pathDepth c shapes (key :: path) = pathDepth c shapes path + c.listLevel := by
  rw [pathDepth, if_pos h]

theorem pathDepth_unlisted (h : key :: path ∉ shapes.lists) :
    pathDepth c shapes (key :: path) = pathDepth c shapes path + 1 := by
  rw [pathDepth, if_neg h]

theorem pathDepth_le (key : Bytes) (path : Path) :
    pathDepth c shapes (key :: path) ≤ pathDepth c shapes path + 1 := by
  have hle := c.listLevel_le
  rw [pathDepth]
  split <;> omega

/-- An element is not deeper than its path if the list is not. -/
theorem le_pathDepth_elem (key : Bytes) (hn : n ≤ pathDepth c shapes path) :
    n + c.listLevel ≤ pathDepth c shapes (key :: path) := by
  have hle := c.listLevel_le
  rw [pathDepth]
  split <;> omega

theorem le_pathDepth_child (hn : n ≤ pathDepth c shapes path) (h : key :: path ∉ shapes.lists) :
    n + 1 ≤ pathDepth c shapes (key :: path) := by
  rw [pathDepth_unlisted c h]
  omega

/-- The marks of a value lie within the limits: `path` is the path of the
value's parent, not deeper than it. -/
def MarksBounded (opts : Options) (c : DepthCount) (shapes : Shapes) (v : Value) : Prop :=
  ∀ (key : Bytes) (path : Path) (depth : DepthState), pathDepth c shapes path ≤ c.count depth →
    exceedsDepthLimit opts depth v = false →
    shapes.Has (valueMarks opts v (key :: path) (enterValueDepth depth v)) →
    ∀ p shape, (p, shape) ∈ valueMarks opts v (key :: path) (enterValueDepth depth v) →
      shape ≠ .scalar → pathDepth c shapes p ≤ c.limit opts

theorem exceedsDepthLimit_of_not_flatten {v : Value}
    (h : ¬ shouldFlattenNested opts depth v = true) : exceedsDepthLimit opts depth v = false := by
  cases v with
  | array | object => simpa [shouldFlattenNested, Value.isArray, Value.isObject] using h
  | _ => rfl

/-- The marks of a list's elements lie within the limit if those of each element do. -/
theorem elementMarks_bounded (hvs : ∀ v ∈ vs, MarksBounded opts c shapes v)
    (hdepth : pathDepth c shapes path ≤ c.count depth)
    (hlimit : elementsExceed opts depth vs = false)
    (hhas : shapes.Has (elementMarks opts vs (listMarker :: path) depth)) (p : Path)
    (shape : ValueShape) (hm : (p, shape) ∈ elementMarks opts vs (listMarker :: path) depth)
    (hshape : shape ≠ .scalar) : pathDepth c shapes p ≤ c.limit opts := by
  induction vs with
  | nil => cases hm
  | cons v vs ih =>
    rw [elementMarks] at hm hhas
    rw [elementsExceed, Bool.or_eq_false_iff] at hlimit
    rcases mem_append.mp hm with hm | hm
    · exact hvs v mem_cons_self listMarker path depth hdepth hlimit.1
        (hhas.mono (subset_append_left _ _)) p shape hm hshape
    · exact ih (fun w hw => hvs w (mem_cons_of_mem v hw)) hlimit.2
        (hhas.mono (subset_append_right _ _)) hm

theorem fieldMarks_bounded (hfs : ∀ f ∈ fs, MarksBounded opts c shapes f.2)
    (hdepth : pathDepth c shapes path ≤ c.count depth)
    (hhas : shapes.Has (fieldMarks opts fs path depth)) (p : Path) (shape : ValueShape)
    (hm : (p, shape) ∈ fieldMarks opts fs path depth) (hshape : shape ≠ .scalar) :
    pathDepth c shapes p ≤ c.limit opts := by
  induction fs with
  | nil => cases hm
  | cons f fs ih =>
    obtain ⟨key, v⟩ := f
    rw [fieldMarks] at hm hhas
    rcases mem_append.mp hm with hm | hm
    · have hfirst := hhas.mono (subset_append_left _ _)
      split_ifs at hm hfirst with hempty hflat
      · cases hm
      · rw [mem_singleton, Prod.mk.injEq] at hm
        exact absurd hm.2 hshape
      · exact hfs _ mem_cons_self key path depth hdepth
          (exceedsDepthLimit_of_not_flatten hflat) hfirst p shape hm hshape
    · exact ih (fun g hg => hfs g (mem_cons_of_mem _ hg))
        (hhas.mono (subset_append_right _ _)) hm

/-- A mark is at most as deep as the value that made it, and that is within the limit. -/
theorem valueMarks_bounded (v : Value) : MarksBounded opts c shapes v := by
  induction v with
  | array vs ih =>
    intro key path depth hdepth hlimit hhas p shape hm hshape
    rw [exceedsDepthLimit, Bool.or_eq_false_iff] at hlimit
    obtain ⟨hne, hm⟩ := mem_closeMarks hm
    have hself : pathDepth c shapes (key :: path) ≤ c.count depth.enterArray := by
      rw [pathDepth_list c (hhas.list (self_mem_closeMarks hne)), c.count_array]
      omega
    rcases hm with hm | hm
    · exact elementMarks_bounded c ih hself hlimit.2 (hhas.mono (subset_closeMarks _ _ _))
        p shape hm hshape
    · cases hm
      exact hself.trans (c.count_le opts _ hlimit.1)
  | object fs ih =>
    intro key path depth hdepth hlimit hhas p shape hm hshape
    rw [exceedsDepthLimit, Bool.or_eq_false_iff] at hlimit
    obtain ⟨-, hm⟩ := mem_closeMarks hm
    have hself : pathDepth c shapes (key :: path) ≤ c.count depth.enterObject := by
      rw [c.count_object]
      exact (pathDepth_le c key path).trans (Nat.add_le_add_right hdepth 1)
    rcases hm with hm | hm
    · exact fieldMarks_bounded c ih hself (hhas.mono (subset_closeMarks _ _ _)) p shape hm hshape
    · cases hm
      exact hself.trans (c.count_le opts _ hlimit.1)
  | null => intro key path depth _ _ _ p shape hm; cases hm
  | bool | int | float | string =>
    intro key path depth _ _ _ p shape hm hshape
    exact absurd (congrArg Prod.snd (mem_singleton.mp hm)) hshape

/-- The marked paths are within the limit. -/
def Shapes.Bounded (opts : Options) (c : DepthCount) (shapes : Shapes) : Prop :=
  ∀ p, p ∈ shapes.lists ∨ p ∈ shapes.structs → pathDepth c shapes p ≤ c.limit opts

/-- **Marked paths are within the limit**, whatever the order of the rows. -/
theorem bounded_add_rowMarks (rows : List Row) :
    (Shapes.add {} (rows.flatMap (rowMarks opts))).Bounded opts c := by
  have hrow : ∀ p shape, (p, shape) ∈ rows.flatMap (rowMarks opts) → shape ≠ .scalar →
      pathDepth c (Shapes.add {} (rows.flatMap (rowMarks opts))) p ≤ c.limit opts := by
    intro p shape hm hshape
    obtain ⟨row, hrow, hm⟩ := mem_flatMap.mp hm
    have hhas := (Shapes.has_add {} (rows.flatMap (rowMarks opts))).mono
      (fun m hm => mem_flatMap.mpr ⟨row, hrow, hm⟩)
    exact fieldMarks_bounded c (fun f _ => valueMarks_bounded c f.2)
      (show pathDepth c _ [] ≤ c.count {} from Nat.zero_le _) hhas p shape hm hshape
  rintro p (hp | hp)
  · exact hrow p .array (by simpa using hp) (by simp)
  · exact hrow p .object (by simpa using hp) (by simp)

end MarkedPaths

/-! ### No container is wrapped -/

/-- Under these marks no non-empty container of the places is wrapped: no object stands at a path
known as a list, and no array at a path known as a struct only. -/
def Shapes.Keep (shapes : Shapes) (places : List Place) : Prop :=
  ∀ m ∈ places, (m.2 = .object → m.1 ∉ shapes.lists) ∧
    (m.2 = .array → m.1 ∈ shapes.structs → m.1 ∈ shapes.lists)

instance (shapes : Shapes) (places : List Place) : Decidable (shapes.Keep places) :=
  inferInstanceAs (Decidable (∀ m ∈ places, _ ∧ _))

/-- No row has a container that is wrapped, under the marks of the rows so far and its own. -/
def NeverWrapped (opts : Options) : Shapes → List Row → Prop
  | _, [] => True
  | shapes, row :: rows =>
    (shapes.add (rowMarks opts row)).Keep (rowPlaces opts row) ∧
      NeverWrapped opts (shapes.add (rowMarks opts row)) rows

instance decidableNeverWrapped (opts : Options) : ∀ (shapes : Shapes) (rows : List Row),
    Decidable (NeverWrapped opts shapes rows)
  | _, [] => isTrue trivial
  | shapes, row :: rows =>
    haveI := decidableNeverWrapped opts (shapes.add (rowMarks opts row)) rows
    inferInstanceAs (Decidable (_ ∧ _))

/-! ### The statistics are within the limit -/

variable {rows : List Row}

/-- The lists and structs below a node are within a limit, if the node itself is `n` deep. -/
inductive Within (c : DepthCount) (limit : Nat) : Nat → StatsNode → Prop
  | mk {n : Nat} {stats : StatsNode} (list : stats.isList = true → n + c.listLevel ≤ limit)
      (struct : stats.isStruct = true → n + 1 ≤ limit)
      (children : ∀ child ∈ stats.children, Within c limit (n + 1) child.2)
      (elem : ∀ e, stats.elem = some e → Within c limit (n + c.listLevel) e) :
      Within c limit n stats

/-- The children of a node are within the limit. -/
def WithinChildren (c : DepthCount) (limit n : Nat) (children : List (Bytes × StatsNode)) : Prop :=
  ∀ child ∈ children, Within c limit n child.2

section Statistics

variable {opts : Options} {c : DepthCount} {limit n : Nat} {shapes : Shapes} {places : List Place}
  {key defaultKey : Bytes} {stats : StatsNode} {shape : ValueShape}
  {direct : Path → DepthState → StatsNode → StatsNode × Bool}

theorem Within.empty : Within c limit n .empty :=
  ⟨by simp [StatsNode.empty], by simp [StatsNode.empty], by simp [StatsNode.empty],
    by simp [StatsNode.empty]⟩

theorem Within.children (h : Within c limit n stats) :
    WithinChildren c limit (n + 1) stats.children := by
  obtain ⟨-, -, hchildren, -⟩ := h
  exact hchildren

theorem Within.getD_elem (h : Within c limit n stats) :
    Within c limit (n + c.listLevel) (stats.elem.getD .empty) := by
  obtain ⟨-, -, -, helem⟩ := h
  rcases e : stats.elem with - | elem
  · exact Within.empty
  · exact helem elem e

theorem WithinChildren.updateChild {update : StatsNode → StatsNode × Bool} {e : Bool}
    (hupdate : ∀ child, Within c limit n child →
      Within c limit n (update child).1 ∧ (update child).2 = e) :
    ∀ {children : List (Bytes × StatsNode)}, WithinChildren c limit n children →
    WithinChildren c limit n (updateChild key update children).1 ∧
      (SchemaSanitizer.updateChild key update children).2 = e
  | [], _ => by
    refine ⟨fun child hchild => ?_, (hupdate _ Within.empty).2⟩
    rw [mem_singleton.mp hchild]
    exact (hupdate _ Within.empty).1
  | (k, child) :: children, h => by
    obtain ⟨hhead, htail⟩ := forall_mem_cons.mp h
    rw [SchemaSanitizer.updateChild]
    split
    · exact ⟨forall_mem_cons.mpr ⟨(hupdate child hhead).1, htail⟩, (hupdate child hhead).2⟩
    · obtain ⟨hrest, hev⟩ := WithinChildren.updateChild hupdate htail
      exact ⟨forall_mem_cons.mpr ⟨hhead, hrest⟩, hev⟩

theorem Within.addScalar {mask : Nat} (h : Within c limit n stats) :
    Within c limit n (stats.addScalar mask).1 := by
  obtain ⟨hl, hs, hc, he⟩ := h
  exact ⟨hl, hs, hc, he⟩

theorem Within.addArray {elem : StatsNode × Bool} (h : Within c limit n stats)
    (helem : Within c limit (n + c.listLevel) elem.1)
    (hlist : elem.2 = true → n + c.listLevel ≤ limit) :
    Within c limit n (stats.addArray elem).1 := by
  obtain ⟨hl, hs, hc, -⟩ := h
  refine ⟨fun hflag => ((Bool.or_eq_true _ _).mp hflag).elim hl hlist, hs, hc, ?_⟩
  rintro e ⟨rfl⟩
  exact helem

theorem Within.addObject {children : List (Bytes × StatsNode) × Bool} (h : Within c limit n stats)
    (hchildren : WithinChildren c limit (n + 1) children.1)
    (hstruct : children.2 = true → n + 1 ≤ limit) :
    Within c limit n (stats.addObject children).1 := by
  obtain ⟨hl, hs, -, he⟩ := h
  exact ⟨hl, fun hflag => ((Bool.or_eq_true _ _).mp hflag).elim hs hstruct, hchildren, he⟩

/-- A node at a marked path has room for the mark: it is not deeper than its path. -/
theorem room_of_list (hbounded : shapes.Bounded opts c) (hn : n ≤ pathDepth c shapes path)
    (h : key :: path ∈ shapes.lists) : n + c.listLevel ≤ c.limit opts := by
  have hle := hbounded _ (.inl h)
  rw [pathDepth_list c h] at hle
  omega

@[inherit_doc room_of_list]
theorem room_of_struct (hbounded : shapes.Bounded opts c) (hn : n ≤ pathDepth c shapes path)
    (h : key :: path ∈ shapes.structs) (hlist : key :: path ∉ shapes.lists) :
    n + 1 ≤ c.limit opts := by
  have hle := hbounded _ (.inr h)
  rw [pathDepth_unlisted c hlist] at hle
  omega

/-- **A value without parts may be wrapped**: only marked nodes become lists and structs. -/
theorem Within.wrapped {e : Bool} (hbounded : shapes.Bounded opts c)
    (hdirect : ∀ n path depth stats, Within c (c.limit opts) n stats →
      Within c (c.limit opts) n (direct path depth stats).1 ∧ (direct path depth stats).2 = e) :
    ∀ (fuel : Nat) {n : Nat} {key : Bytes} {path : Path} {depth : DepthState} {stats : StatsNode},
    n ≤ pathDepth c shapes path → Within c (c.limit opts) n stats →
    Within c (c.limit opts) n
        (wrapped shapes defaultKey shape direct fuel (key :: path) depth stats).1 ∧
      (SchemaSanitizer.wrapped shapes defaultKey shape direct fuel (key :: path) depth stats).2
        = e := by
  intro fuel
  induction fuel with
  | zero => intro n key path depth stats _ h; exact hdirect n _ depth stats h
  | succ fuel ih =>
    intro n key path depth stats hn h
    have helem := h.getD_elem
    obtain ⟨hl, hs, hc, he⟩ := h
    simp only [SchemaSanitizer.wrapped]
    split_ifs with hlist harray hstruct hobject
    · exact hdirect _ _ _ _ ⟨fun _ => room_of_list hbounded hn hlist, hs, hc, he⟩
    · have hdown := le_pathDepth_elem c key hn
      refine ⟨⟨fun _ => room_of_list hbounded hn hlist, hs, hc, ?_⟩, (ih hdown helem).2⟩
      rintro e ⟨rfl⟩
      exact (ih hdown helem).1
    · exact hdirect _ _ _ _ ⟨hl, fun _ => room_of_struct hbounded hn hstruct hlist, hc, he⟩
    · have hdown := le_pathDepth_child c hn hlist
      obtain ⟨hchildren, hev⟩ := WithinChildren.updateChild (fun child hchild => ih hdown hchild) hc
      exact ⟨⟨hl, fun _ => room_of_struct hbounded hn hstruct hlist, hchildren, he⟩, hev⟩
    · exact hdirect _ _ _ _ ⟨hl, hs, hc, he⟩

/-- A non-empty container that is not wrapped is counted where it stands. -/
theorem Within.wrapped_direct {P : StatsNode × Bool → Prop} (hbounded : shapes.Bounded opts c)
    (hkeep : shapes.Keep places) (hplace : (key :: path, shape) ∈ places) (hshape : shape ≠ .scalar)
    (hn : n ≤ pathDepth c shapes path) (h : Within c (c.limit opts) n stats)
    (hdirect : ∀ stats, Within c (c.limit opts) n stats → P (direct (key :: path) depth stats)) :
    P (SchemaSanitizer.wrapped shapes defaultKey shape direct shapes.height (key :: path) depth
      stats) := by
  obtain ⟨hl, hs, hc, he⟩ := h
  obtain ⟨hkeepObject, hkeepArray⟩ := hkeep _ hplace
  rw [wrapped_eq]
  split_ifs with hlist harray hstruct hobject
  · exact hdirect _ ⟨fun _ => room_of_list hbounded hn hlist, hs, hc, he⟩
  · cases shape with
    | array => exact absurd rfl harray
    | object => exact absurd hlist (hkeepObject rfl)
    | scalar => exact absurd rfl hshape
  · exact hdirect _ ⟨hl, fun _ => room_of_struct hbounded hn hstruct hlist, hc, he⟩
  · cases shape with
    | array => exact absurd (hkeepArray rfl hstruct) hlist
    | object => exact absurd rfl hobject
    | scalar => exact absurd rfl hshape
  · exact hdirect _ ⟨hl, hs, hc, he⟩

/-- The second pass over a value keeps the statistics within the limit, and finds the
evidence the first pass found. -/
def KeepsWithin (opts : Options) (c : DepthCount) (shapes : Shapes) (places : List Place)
    (v : Value) : Prop :=
  ∀ (n : Nat) (key : Bytes) (path : Path) (depth : DepthState) (stats : StatsNode),
    n ≤ pathDepth c shapes path →
    valuePlaces opts v (key :: path) depth ⊆ places →
    shapes.Has (valueMarks opts v (key :: path) depth) →
    Within c (c.limit opts) n stats →
    Within c (c.limit opts) n (updateStatsValue opts shapes v (key :: path) depth stats).1 ∧
      (updateStatsValue opts shapes v (key :: path) depth stats).2
        = !(valueMarks opts v (key :: path) depth).isEmpty

/-- Recording the elements of a list keeps the statistics within the limit. -/
theorem updateStatsElements_within (hvs : ∀ v ∈ vs, KeepsWithin opts c shapes places v)
    (hn : n ≤ pathDepth c shapes path) :
    ∀ {stats : StatsNode}, elementPlaces opts vs (key :: path) depth ⊆ places →
      shapes.Has (elementMarks opts vs (key :: path) depth) → Within c (c.limit opts) n stats →
      Within c (c.limit opts) n (updateStatsElements opts shapes vs (key :: path) depth stats).1 ∧
        (updateStatsElements opts shapes vs (key :: path) depth stats).2 =
          !(elementMarks opts vs (key :: path) depth).isEmpty := by
  induction vs with
  | nil => intro stats _ _ h; exact ⟨h, rfl⟩
  | cons v vs ih =>
    intro stats hplaces hhas h
    rw [elementPlaces] at hplaces
    rw [elementMarks] at hhas ⊢
    obtain ⟨hv, hev⟩ := hvs v mem_cons_self n key path (enterValueDepth depth v) stats hn
      (fun m hm => hplaces (mem_append_left _ hm)) (hhas.mono (subset_append_left _ _)) h
    obtain ⟨hrest, hevrest⟩ := ih (fun w hw => hvs w (mem_cons_of_mem v hw))
      (fun m hm => hplaces (mem_append_right _ hm)) (hhas.mono (subset_append_right _ _)) hv
    rw [updateStatsElements, not_isEmpty_append]
    exact ⟨hrest, by rw [hev, hevrest]⟩

/-- Recording the fields of an object keeps the statistics within the limit. -/
theorem updateStatsFields_within (hfs : ∀ f ∈ fs, KeepsWithin opts c shapes places f.2)
    (hn : n ≤ pathDepth c shapes path) :
    ∀ {children : List (Bytes × StatsNode)}, fieldPlaces opts fs path depth ⊆ places →
      shapes.Has (fieldMarks opts fs path depth) → WithinChildren c (c.limit opts) n children →
      WithinChildren c (c.limit opts) n (updateStatsFields opts shapes fs path depth children).1 ∧
        (updateStatsFields opts shapes fs path depth children).2 =
          !(fieldMarks opts fs path depth).isEmpty := by
  induction fs with
  | nil => intro children _ _ h; exact ⟨h, rfl⟩
  | cons f fs ih =>
    obtain ⟨key, v⟩ := f
    intro children hplaces hhas h
    rw [fieldPlaces] at hplaces
    rw [fieldMarks] at hhas ⊢
    obtain ⟨hplacesv, hplacesr⟩ := append_subset.mp hplaces
    have hhasv := hhas.mono (subset_append_left _ _)
    have hrest := fun {children : List (Bytes × StatsNode)}
        (hc : WithinChildren c (c.limit opts) n children) =>
      ih (fun g hg => hfs g (mem_cons_of_mem _ hg)) hplacesr
        (hhas.mono (subset_append_right _ _)) hc
    rw [updateStatsFields, not_isEmpty_append]
    dsimp only
    split_ifs at hplacesv hhasv ⊢ with hempty hflat
    · exact ⟨(hrest h).1, by rw [(hrest h).2]; rfl⟩
    · -- a flattened field is a child without flags
      obtain ⟨hchild, hev⟩ :=
        @WithinChildren.updateChild c (c.limit opts) n (key ++ flattenedSuffix)
        markFlattened true (fun child hchild => ⟨hchild.addScalar, rfl⟩) children h
      exact ⟨(hrest hchild).1, by rw [(hrest hchild).2, hev]; rfl⟩
    · obtain ⟨hchild, hev⟩ := WithinChildren.updateChild (fun child hchild =>
        hfs _ mem_cons_self n key path (enterValueDepth depth v) child hn hplacesv hhasv hchild) h
      exact ⟨(hrest hchild).1, by rw [(hrest hchild).2, hev]⟩

/-- **One value**: arrays and objects set flags only where they are marked,
scalars and empty containers set none. -/
theorem updateStatsValue_within (hbounded : shapes.Bounded opts c) (hkeep : shapes.Keep places)
    (v : Value) : KeepsWithin opts c shapes places v := by
  induction v with
  | null => intro n key path depth stats _ _ _ h; exact ⟨h, rfl⟩
  | bool | int | float | string =>
    intro n key path depth stats hn _ _ h
    exact Within.wrapped hbounded (fun _ _ _ _ h => ⟨h.addScalar, rfl⟩) _ hn h
  | array vs ih =>
    intro n key path depth stats hn hplaces hhas h
    rcases vs with - | ⟨v, vs⟩
    · -- an empty array has no evidence anywhere
      rw [updateStatsValue]
      apply Within.wrapped hbounded _ _ hn h
      intro m p d st hst
      exact ⟨hst.addArray hst.getD_elem (fun hev => by cases hev), rfl⟩
    · refine h.wrapped_direct (P := fun r => Within c (c.limit opts) n r.1 ∧
        r.2 = !(valueMarks opts (.array (v :: vs)) (key :: path) depth).isEmpty) hbounded hkeep
        (hplaces mem_cons_self) (by simp) hn fun st hst => ?_
      obtain ⟨helem, hev⟩ := updateStatsElements_within ih (le_pathDepth_elem c key hn)
        (fun m hm => hplaces (mem_cons_of_mem _ hm)) (hhas.mono (subset_closeMarks _ _ _))
        hst.getD_elem
      rw [valueMarks, isEmpty_closeMarks]
      refine ⟨hst.addArray helem fun hflag => ?_, hev⟩
      rw [hev] at hflag
      exact room_of_list hbounded hn (hhas.list (self_mem_closeMarks (by simpa using hflag)))
  | object fs ih =>
    intro n key path depth stats hn hplaces hhas h
    rcases fs with - | ⟨f, fs⟩
    · rw [updateStatsValue]
      apply Within.wrapped hbounded _ _ hn h
      intro m p d st hst
      have hc : WithinChildren c (c.limit opts) (m + 1) st.children := hst.children
      exact ⟨hst.addObject hc (fun hev => by cases hev), rfl⟩
    · have hplace : (key :: path, ValueShape.object) ∈ places := hplaces mem_cons_self
      have hlist := (hkeep _ hplace).1 rfl
      refine h.wrapped_direct (P := fun r => Within c (c.limit opts) n r.1 ∧
        r.2 = !(valueMarks opts (.object (f :: fs)) (key :: path) depth).isEmpty) hbounded hkeep
        hplace (by simp) hn fun st hst => ?_
      obtain ⟨hchildren, hev⟩ := updateStatsFields_within ih (le_pathDepth_child c hn hlist)
        (fun m hm => hplaces (mem_cons_of_mem _ hm)) (hhas.mono (subset_closeMarks _ _ _))
        hst.children
      rw [valueMarks, isEmpty_closeMarks]
      refine ⟨hst.addObject hchildren fun hflag => ?_, hev⟩
      rw [hev] at hflag
      exact room_of_struct hbounded hn (hhas.struct (self_mem_closeMarks (by simpa using hflag)))
        hlist

/-- **A run of rows** keeps the statistics within the limit, whatever rows came before. -/
theorem scanRows_within (before : List Row) : ∀ ctx : InferenceContext,
    ctx.shapes = Shapes.add {} (before.flatMap (rowMarks opts)) →
    NeverWrapped opts ctx.shapes rows → WithinChildren c (c.limit opts) 0 ctx.root →
    WithinChildren c (c.limit opts) 0 (scanRows opts ctx rows).root := by
  induction rows generalizing before with
  | nil => intro ctx _ _ h; exact h
  | cons row rows ih =>
    intro ctx hshapes ⟨hkeep, hnever⟩ h
    have hnext : (scanRow opts ctx row).shapes = ctx.shapes.add (rowMarks opts row) :=
      scanShapesRow_eq opts ctx.shapes row
    have hbefore : (scanRow opts ctx row).shapes
        = Shapes.add {} ((before ++ [row]).flatMap (rowMarks opts)) := by
      rw [hnext, hshapes]
      simp
    rw [← hnext] at hkeep hnever
    have hbounded : (scanRow opts ctx row).shapes.Bounded opts c :=
      hbefore ▸ bounded_add_rowMarks c (before ++ [row])
    have hhas : (scanRow opts ctx row).shapes.Has (rowMarks opts row) :=
      hnext ▸ Shapes.has_add _ _
    exact ih (before ++ [row]) (scanRow opts ctx row) hbefore hnever
      (updateStatsFields_within (fun f _ => updateStatsValue_within hbounded hkeep f.2)
        (Nat.zero_le _) (List.Subset.refl _) hhas h).1

end Statistics

/-! ### The bound -/

section Bound

variable {opts : Options} (c : DepthCount)

theorem mem_childTypesFromStats {children : List (Bytes × StatsNode)} {t : Bytes × LogicalType}
    (h : t ∈ childTypesFromStats opts children) :
    ∃ child ∈ children, t = (child.1, typeFromStats opts child.2) := by
  induction children with
  | nil => cases h
  | cons child children ih =>
    obtain ⟨key, child⟩ := child
    rw [childTypesFromStats] at h
    split_ifs at h
    · rcases mem_cons.mp h with rfl | h
      · exact ⟨_, mem_cons_self, rfl⟩
      · obtain ⟨c, hc, heq⟩ := ih h
        exact ⟨c, mem_cons_of_mem _ hc, heq⟩
    · obtain ⟨c, hc, heq⟩ := ih h
      exact ⟨c, mem_cons_of_mem _ hc, heq⟩

/-- Statistics within the limit give a type no deeper than what is left of it. -/
theorem nestingDepth_typeFromStats_le {limit n : Nat} {stats : StatsNode}
    (h : Within c limit n stats) :
    nestingDepth c.listLevel (typeFromStats opts stats) ≤ limit - n := by
  induction h with
  | @mk n stats hlist hstruct _ _ ihchildren ihelem =>
    obtain ⟨_, _, _, _, children, elem⟩ := stats
    rw [typeFromStats]
    split_ifs with hl hs
    · -- one level for the list, the rest for its elements
      have hle := hlist hl
      have helem : nestingDepth c.listLevel (elemTypeFromStats opts elem)
          ≤ limit - (n + c.listLevel) := by
        rcases elem with - | e
        · exact Nat.zero_le _
        · rw [elemTypeFromStats]
          split_ifs
          · exact Nat.zero_le _
          · exact ihelem e rfl
      rw [nestingDepth, nestingDepthValue]
      omega
    · have hle := hstruct hs
      have htypes : ∀ t ∈ childTypesFromStats opts children,
          nestingDepth c.listLevel t.2 ≤ limit - (n + 1) := by
        intro t ht
        obtain ⟨child, hchild, rfl⟩ := mem_childTypesFromStats ht
        exact ihchildren child hchild
      have hfields := @nestingDepthFields_fieldsOfTypes_le _ _ (cleanSiblingFieldNames
        opts.toNameOptions ((childTypesFromStats opts children).map Prod.fst)) _ htypes
      rw [nestingDepth]
      omega
    · exact Nat.zero_le _

theorem inferRows_nestingDepth_le (h : NeverWrapped opts {} rows) :
    nestingDepthFields c.listLevel (inferRows opts rows).fields ≤ c.limit opts := by
  have hroot : WithinChildren c (c.limit opts) 0 (scanRows opts {} rows).root :=
    scanRows_within [] {} (by simp) h fun child hchild => absurd hchild not_mem_nil
  apply nestingDepthFields_fieldsOfTypes_le
  intro t ht
  obtain ⟨child, hchild, rfl⟩ := mem_childTypesFromStats ht
  exact nestingDepth_typeFromStats_le c (hroot child hchild)

end Bound

/-- **Nesting limits of the inferred schema.**  If no container is wrapped, the schema is within
both limits. -/
theorem inferRows_depth_le (opts : Options) (rows : List Row) (h : NeverWrapped opts {} rows) :
    arrowSchemaDepth (inferRows opts rows) ≤ opts.arrowMaxDepth ∧
      parquetSchemaDepth (inferRows opts rows) ≤ opts.parquetMaxDepth :=
  ⟨inferRows_nestingDepth_le arrowCount h, inferRows_nestingDepth_le parquetCount h⟩

/-- An object, then an array and a scalar at one path. -/
theorem inferRows_depth_le_sample :
    arrowSchemaDepth (inferRows (textOptions 1 1)
      [[(bytes "a", .object [(bytes "x", .int 1)])], [(bytes "a", .array [.int 1])],
        [(bytes "a", .int 5)]]) ≤ 1 ∧
    parquetSchemaDepth (inferRows (textOptions 1 1)
      [[(bytes "a", .object [(bytes "x", .int 1)])], [(bytes "a", .array [.int 1])],
        [(bytes "a", .int 5)]]) ≤ 1 :=
  inferRows_depth_le (textOptions 1 1) _ (by decide)

/-- An array of scalars and an object, both of depth one, at one path: the
object is wrapped into the list, and the schema has depth two. -/
theorem inferRows_too_deep :
    arrowSchemaDepth (inferRows (textOptions 1 1)
      [[(bytes "a", .array [.int 1])], [(bytes "a", .object [(bytes "x", .int 1)])]]) = 2 := by
  decide +kernel

-- An array without a value that is wrapped under the default key: the depth is counted from
-- there, the innermost array is flattened, and the array has a value after all.
example : parquetSchemaDepth (inferRows (textOptions 3 1)
    [[(bytes "a", .object [(bytes "k", .int 1)])],
      [(bytes "a", .array [.object [(bytes "x", .array [.null])]])]]) = 2 := by
  decide +kernel

end SchemaSanitizer
