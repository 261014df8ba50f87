/-
SchemaSanitizer/WellFormed.lean

The shape of inferred schemas (`type_from_stats`, `infer_logical_schema`).  Every
field has a type, no list holds a list, no struct is empty, no column is null.

Only the structs need an argument.  A node becomes a struct by an object with
evidence, and then a child of it has evidence; or because its path is marked,
and then some object with evidence stood at that path in a row.  That object
has updated this very node, unless one of the containers around it stands at a
path marked as a list: the object is then wrapped one level down.  But such a
node is no longer read, since the type of the outer container is a list
(`Live`).

Paths name nodes only if no key is the list marker itself.  With such a key the
object that marks a path and the node at that path may have nothing in common,
and `inferRows_empty_struct` is a run of three rows that ends in a struct
without fields.
-/
import SchemaSanitizer.Depth

namespace SchemaSanitizer

open List

/-! ### Depths -/

/-- Less deep in both counts. -/
structure DepthState.Le (a b : DepthState) : Prop where
  arrow : a.arrow ≤ b.arrow
  parquet : a.parquet ≤ b.parquet

section Depths

variable {opts : Options} {a b depth : DepthState} {vs : List Value} {fs : List (Bytes × Value)}

theorem DepthState.Le.refl (a : DepthState) : a.Le a := ⟨Nat.le_refl _, Nat.le_refl _⟩

theorem DepthState.Le.enterArray (h : a.Le b) : a.enterArray.Le b.enterArray :=
  ⟨Nat.succ_le_succ h.arrow, h.parquet⟩

theorem DepthState.Le.enterObject (h : a.Le b) : a.enterObject.Le b.enterObject :=
  ⟨Nat.succ_le_succ h.arrow, Nat.succ_le_succ h.parquet⟩

theorem DepthState.Le.below (h : a.Le b) : a.Le b.enterObject :=
  ⟨Nat.le_succ_of_le h.arrow, Nat.le_succ_of_le h.parquet⟩

theorem DepthState.Le.enterValue (h : a.Le b) (v : Value) :
    (enterValueDepth a v).Le (enterValueDepth b v) := by
  cases v with
  | array => exact h.enterArray
  | object => exact h.enterObject
  | null | bool | int | float | string => exact h

theorem DepthState.Le.beyond (h : a.Le b) (ha : opts.beyond a = true) : opts.beyond b = true := by
  have harrow := h.arrow
  have hparquet := h.parquet
  simp only [Options.beyond, Bool.or_eq_true, decide_eq_true_eq] at ha ⊢
  omega

theorem elementsExceed_iff :
    elementsExceed opts depth vs = true ↔ ∃ v ∈ vs, exceedsDepthLimit opts depth v = true := by
  induction vs with
  | nil => simp [elementsExceed]
  | cons v vs ih => simp [elementsExceed, ih]

theorem fieldsExceed_iff :
    fieldsExceed opts depth fs = true ↔ ∃ f ∈ fs, exceedsDepthLimit opts depth f.2 = true := by
  induction fs with
  | nil => simp [fieldsExceed]
  | cons f fs ih => simp [fieldsExceed, ih]

theorem exceedsDepthLimit_mono (v : Value) : ∀ {a b : DepthState}, a.Le b →
    exceedsDepthLimit opts a v = true → exceedsDepthLimit opts b v = true := by
  induction v with
  | null | bool | int | float | string => exact fun _ h => h
  | array vs ih =>
    intro a b hab h
    rw [exceedsDepthLimit, Bool.or_eq_true, elementsExceed_iff] at h ⊢
    rcases h with h | ⟨v, hv, h⟩
    · exact .inl (hab.enterArray.beyond h)
    · exact .inr ⟨v, hv, ih v hv hab.enterArray h⟩
  | object fs ih =>
    intro a b hab h
    rw [exceedsDepthLimit, Bool.or_eq_true, fieldsExceed_iff] at h ⊢
    rcases h with h | ⟨f, hf, h⟩
    · exact .inl (hab.enterObject.beyond h)
    · exact .inr ⟨f, hf, ih f hf hab.enterObject h⟩

theorem shouldFlattenNested_mono {v : Value} (hab : a.Le b)
    (h : shouldFlattenNested opts a v = true) : shouldFlattenNested opts b v = true := by
  rw [shouldFlattenNested, Bool.and_eq_true] at h ⊢
  exact ⟨h.1, exceedsDepthLimit_mono v hab h.2⟩

end Depths

/-! ### Keys -/

mutual

/-- The keys that a value at a depth is counted under, at any level of it: an empty container
is not counted at all, and a flattened one only as a text. -/
def Value.keys (opts : Options) : DepthState → Value → List Bytes
  | depth, .array elements => elementKeys opts depth elements
  | depth, .object fields => fieldKeys opts depth fields
  | _, _ => []

/-- The keys in the elements of an array. -/
def elementKeys (opts : Options) : DepthState → List Value → List Bytes
  | _, [] => []
  | depth, v :: vs => v.keys opts (enterValueDepth depth v) ++ elementKeys opts depth vs

/-- The keys of the fields of an object or a row, and those inside. -/
def fieldKeys (opts : Options) : DepthState → List (Bytes × Value) → List Bytes
  | _, [] => []
  | depth, (key, v) :: fs =>
    (if v.containerIsEmpty then []
      else if shouldFlattenNested opts depth v then []
      else key :: v.keys opts (enterValueDepth depth v)) ++ fieldKeys opts depth fs

end

variable {vs : List Value} {fs : List (Bytes × Value)}

section Keys

variable {opts : Options} {depth : DepthState} {key : Bytes}

theorem not_mem_elementKeys :
    key ∉ elementKeys opts depth vs ↔ ∀ v ∈ vs, key ∉ v.keys opts (enterValueDepth depth v) := by
  induction vs with
  | nil => simp [elementKeys]
  | cons v vs ih => simp [elementKeys, ih]

theorem not_mem_fieldKeys_cons {f : Bytes × Value} :
    key ∉ fieldKeys opts depth (f :: fs) ↔
      (f.2.containerIsEmpty = false → shouldFlattenNested opts depth f.2 = false →
        key ≠ f.1 ∧ key ∉ f.2.keys opts (enterValueDepth depth f.2)) ∧
      key ∉ fieldKeys opts depth fs := by
  obtain ⟨k, v⟩ := f
  rw [fieldKeys, mem_append, not_or]
  refine and_congr_left' ?_
  split_ifs with hempty hflat
  · simp [hempty]
  · simp [hflat]
  · simp [hempty, hflat]

theorem not_mem_fieldKeys :
    key ∉ fieldKeys opts depth fs ↔ ∀ f ∈ fs, f.2.containerIsEmpty = false →
      shouldFlattenNested opts depth f.2 = false →
      key ≠ f.1 ∧ key ∉ f.2.keys opts (enterValueDepth depth f.2) := by
  induction fs with
  | nil => simp [fieldKeys]
  | cons f fs ih => rw [not_mem_fieldKeys_cons, ih, forall_mem_cons]

theorem flattened_ne_listMarker (key : Bytes) : key ++ flattenedSuffix ≠ listMarker := by
  intro h
  have hlength : (key ++ flattenedSuffix).length = listMarker.length := by rw [h]
  rw [length_append] at hlength
  have hsuffix : flattenedSuffix.length = 10 := rfl
  have hmarker : listMarker.length = 2 := rfl
  omega

end Keys

/-! ### Nodes and paths -/

/-- A step from a node to one of its parts. -/
inductive StatsStep
  | elem
  | child (key : Bytes)

/-- The child of a key, without observations if there is none. -/
def childOf (children : List (Bytes × StatsNode)) (key : Bytes) : StatsNode :=
  (children.lookup key).getD .empty

/-- The part of a node after a step. -/
def StatsNode.part (stats : StatsNode) : StatsStep → StatsNode
  | .elem => stats.elem.getD .empty
  | .child key => childOf stats.children key

/-- The node reached by steps. -/
def StatsNode.walk (stats : StatsNode) (steps : List StatsStep) : StatsNode :=
  steps.foldl StatsNode.part stats

section Children

variable {key : Bytes} {update : StatsNode → StatsNode × Bool} {children : List (Bytes × StatsNode)}

theorem childOf_cons (k k' : Bytes) (child : StatsNode) (children : List (Bytes × StatsNode)) :
    childOf ((k', child) :: children) k = if k = k' then child else childOf children k := by
  rw [childOf, lookup_cons]
  by_cases hk : k = k'
  · simp [hk]
  · simp [hk, beq_eq_false_iff_ne.mpr hk, childOf]

/-- An update of one child leaves the others. -/
theorem childOf_updateChild (k : Bytes) : ∀ children : List (Bytes × StatsNode),
    childOf (updateChild key update children).1 k =
      if k = key then (update (childOf children key)).1 else childOf children k
  | [] => by
    rw [updateChild, childOf_cons]
    rfl
  | (k', child) :: children => by
    rw [updateChild]
    by_cases hkey : k' = key
    · rw [if_pos hkey, childOf_cons, childOf_cons, childOf_cons, if_pos hkey.symm, hkey]
      split <;> rfl
    · rw [if_neg hkey, childOf_cons, childOf_cons, childOf_cons, if_neg (Ne.symm hkey),
        childOf_updateChild k children]
      by_cases hk : k = k'
      · rw [if_pos hk, if_pos hk, if_neg fun h => hkey (hk.symm.trans h)]
      · rw [if_neg hk, if_neg hk]

theorem childOf_eq_empty_or_mem (key : Bytes) : ∀ children : List (Bytes × StatsNode),
    childOf children key = .empty ∨ (key, childOf children key) ∈ children
  | [] => .inl rfl
  | (k, child) :: children => by
    rw [childOf_cons]
    split
    · rename_i hk
      rw [hk]
      exact .inr mem_cons_self
    · exact (childOf_eq_empty_or_mem key children).imp_right (mem_cons_of_mem _)

theorem childOf_of_mem {c : Bytes × StatsNode}
    (hnodup : (children.map Prod.fst).Nodup) (hc : c ∈ children) : childOf children c.1 = c.2 := by
  induction children with
  | nil => cases hc
  | cons d children ih =>
    obtain ⟨key, child⟩ := d
    rw [map_cons, nodup_cons] at hnodup
    rw [childOf_cons]
    rcases mem_cons.mp hc with rfl | hc
    · exact if_pos rfl
    · have hmem : c.1 ∈ children.map Prod.fst := mem_map_of_mem hc
      have hkey : c.1 ≠ key := fun heq => hnodup.1 (heq ▸ hmem)
      rw [if_neg hkey, ih hnodup.2 hc]

theorem map_fst_updateChild :
    ∀ children : List (Bytes × StatsNode), (updateChild key update children).1.map Prod.fst =
      if key ∈ children.map Prod.fst then children.map Prod.fst
      else children.map Prod.fst ++ [key]
  | [] => rfl
  | (k, child) :: children => by
    rw [updateChild]
    split_ifs with hk hmem hmem
    · rfl
    · simp [hk] at hmem
    · have hin : key ∈ children.map Prod.fst :=
        (mem_cons.mp hmem).resolve_left (Ne.symm hk)
      simp [map_fst_updateChild children, hin]
    · have hin : key ∉ children.map Prod.fst := fun h => hmem (mem_cons_of_mem k h)
      simp [map_fst_updateChild children, hin]

theorem snd_updateChild :
    ∀ children, (updateChild key update children).2 = (update (childOf children key)).2
  | [] => rfl
  | (k, child) :: children => by
    rw [updateChild, childOf_cons]
    by_cases hk : k = key
    · rw [if_pos hk, if_pos hk.symm]
    · rw [if_neg hk, if_neg (Ne.symm hk), snd_updateChild children]

end Children

variable {steps : List StatsStep} {key : Bytes}

/-- The path component of a step. -/
def StatsStep.name : StatsStep → Bytes
  | .elem => listMarker
  | .child key => key

/-- The path after steps. -/
def pathAfter (path : Path) : List StatsStep → Path
  | [] => path
  | step :: steps => pathAfter (step.name :: path) steps

/-- The nodes that are read as types: no field is looked up where a list is
marked.  No key is the list marker. -/
def Live (shapes : Shapes) : Path → List StatsStep → Prop
  | _, [] => True
  | path, .elem :: steps => Live shapes (listMarker :: path) steps
  | path, .child key :: steps =>
    path ∉ shapes.lists ∧ key ≠ listMarker ∧ Live shapes (key :: path) steps

/-- Some child of the node has evidence. -/
def StatsNode.HasField (stats : StatsNode) : Prop :=
  ∃ key, (childOf stats.children key).hasEvidence = true

section Paths

variable {shapes more : Shapes} {path : Path}

theorem suffix_pathAfter (steps : List StatsStep) : ∀ path, path <:+ pathAfter path steps := by
  induction steps with
  | nil => exact suffix_refl
  | cons step steps ih => exact fun path => (suffix_cons _ _).trans (ih _)

theorem eq_nil_of_pathAfter (h : pathAfter path steps = path) : steps = [] := by
  cases steps with
  | nil => rfl
  | cons step steps =>
    have hlong := (suffix_pathAfter steps (step.name :: path)).length_le
    rw [← pathAfter, h, length_cons] at hlong
    exact absurd hlong (Nat.not_succ_le_self _)

theorem step_of_suffix (h : key :: path <:+ pathAfter path steps) :
    ∃ step rest, steps = step :: rest ∧ step.name = key := by
  rcases steps with - | ⟨step, rest⟩
  · have hlength := h.length_le
    simp [pathAfter] at hlength
  · refine ⟨step, rest, rfl, ?_⟩
    have hstep : step.name :: path <:+ pathAfter path (step :: rest) :=
      suffix_pathAfter rest (step.name :: path)
    have heq := (suffix_of_suffix_length_le h hstep (by simp)).eq_of_length (by simp)
    exact (cons.inj heq).1.symm

theorem Live.mono (h : shapes.lists ⊆ more.lists) : ∀ (steps : List StatsStep) (path : Path),
    Live more path steps → Live shapes path steps := by
  intro steps
  induction steps with
  | nil => exact fun _ _ => trivial
  | cons step steps ih =>
    intro path hlive
    cases step with
    | elem => exact ih _ hlive
    | child key =>
      obtain ⟨hlist, hkey, hrest⟩ := hlive
      exact ⟨fun hmem => hlist (h hmem), hkey, ih _ hrest⟩

end Paths

/-! ### What an update does to the nodes -/

/-- Distinct keys, and none of them the list marker. -/
structure GoodKeys (children : List (Bytes × StatsNode)) : Prop where
  nodup : (children.map Prod.fst).Nodup
  marker : listMarker ∉ children.map Prod.fst

/-- How one node may change: nothing is lost, and a new struct is marked or has
a field. -/
structure OwnGrowth (shapes : Shapes) (path : Path) (before after : StatsNode) : Prop where
  list : before.isList = true → after.isList = true
  evidence : before.hasEvidence = true → after.hasEvidence = true
  struct : after.isStruct = true →
    before.isStruct = true ∨ path ∈ shapes.structs ∨ after.HasField
  keys : GoodKeys before.children → GoodKeys after.children

/-- Every node from a path on changes like that. -/
def Grows (shapes : Shapes) (path : Path) (before after : StatsNode) : Prop :=
  ∀ steps, OwnGrowth shapes (pathAfter path steps) (before.walk steps) (after.walk steps)

/-- The children of a node at a path change like that. -/
structure GrowsChildren (shapes : Shapes) (path : Path) (before after : List (Bytes × StatsNode)) :
    Prop where
  keys : GoodKeys before → GoodKeys after
  child : ∀ key, Grows shapes (key :: path) (childOf before key) (childOf after key)

section Growth

variable {shapes : Shapes} {path : Path} {a b c : StatsNode}

theorem StatsNode.walk_child (stats : StatsNode) (steps : List StatsStep) (key : Bytes) :
    stats.walk (steps ++ [.child key]) = childOf (stats.walk steps).children key := by
  rw [StatsNode.walk, foldl_append]
  rfl

theorem Grows.hasField (h : Grows shapes path a b) (hf : (a.walk steps).HasField) :
    (b.walk steps).HasField := by
  obtain ⟨key, hkey⟩ := hf
  refine ⟨key, ?_⟩
  rw [← StatsNode.walk_child] at hkey ⊢
  exact (h _).evidence hkey

theorem Grows.refl (a : StatsNode) : Grows shapes path a a :=
  fun _ => ⟨id, id, .inl, id⟩

theorem Grows.trans (hab : Grows shapes path a b) (hbc : Grows shapes path b c) :
    Grows shapes path a c := by
  intro steps
  refine ⟨fun h => (hbc steps).list ((hab steps).list h),
    fun h => (hbc steps).evidence ((hab steps).evidence h), fun h => ?_,
    fun h => (hbc steps).keys ((hab steps).keys h)⟩
  rcases (hbc steps).struct h with hb | hmark | hf
  · rcases (hab steps).struct hb with ha | hmark | hf
    · exact .inl ha
    · exact .inr (.inl hmark)
    · exact .inr (.inr (hbc.hasField hf))
  · exact .inr (.inl hmark)
  · exact .inr (.inr hf)

theorem GrowsChildren.refl (children : List (Bytes × StatsNode)) :
    GrowsChildren shapes path children children :=
  ⟨id, fun _ => Grows.refl _⟩

theorem GrowsChildren.trans {a b c : List (Bytes × StatsNode)} (hab : GrowsChildren shapes path a b)
    (hbc : GrowsChildren shapes path b c) : GrowsChildren shapes path a c :=
  ⟨fun h => hbc.keys (hab.keys h), fun key => (hab.child key).trans (hbc.child key)⟩

theorem grows_of_parts {stats after : StatsNode}
    (hlist : stats.isList = true → after.isList = true)
    (hevidence : stats.hasEvidence = true → after.hasEvidence = true)
    (hstruct : after.isStruct = true → stats.isStruct = true ∨ path ∈ shapes.structs ∨
      after.HasField)
    (helem : Grows shapes (listMarker :: path) (stats.elem.getD .empty) (after.elem.getD .empty))
    (hchildren : GrowsChildren shapes path stats.children after.children) :
    Grows shapes path stats after
  | [] => ⟨hlist, hevidence, hstruct, hchildren.keys⟩
  | .elem :: steps => helem steps
  | .child key :: steps => hchildren.child key steps

end Growth

variable {defaultKey : Bytes} {shape : ValueShape}
  {direct : Path → DepthState → StatsNode → StatsNode × Bool}

section Updates

variable {opts : Options} {shapes : Shapes} {path : Path} {stats : StatsNode} {key : Bytes}
  {old : Bool} {a b : DepthState}

/-- An update of a node at a path that says truly whether there was evidence. -/
structure NodeUpdate (shapes : Shapes) (path : Path) (before : StatsNode) (r : StatsNode × Bool) :
    Prop where
  grows : Grows shapes path before r.1
  evidence : r.2 = true → r.1.hasEvidence = true

/-- The same for the children of a node. -/
structure ChildrenUpdate (shapes : Shapes) (path : Path) (before : List (Bytes × StatsNode))
    (r : List (Bytes × StatsNode) × Bool) : Prop where
  grows : GrowsChildren shapes path before r.1
  evidence : r.2 = true → ∃ key, (childOf r.1 key).hasEvidence = true

theorem NodeUpdate.refl (stats : StatsNode) : NodeUpdate shapes path stats (stats, false) :=
  ⟨Grows.refl _, fun hev => absurd hev Bool.false_ne_true⟩

theorem ChildrenUpdate.refl (children : List (Bytes × StatsNode)) :
    ChildrenUpdate shapes path children (children, false) :=
  ⟨GrowsChildren.refl _, fun hev => absurd hev Bool.false_ne_true⟩

theorem GoodKeys.updateChild {update : StatsNode → StatsNode × Bool}
    {children : List (Bytes × StatsNode)} (hkey : key ≠ listMarker) (h : GoodKeys children) :
    GoodKeys (updateChild key update children).1 := by
  constructor
  · rw [map_fst_updateChild]
    split_ifs with hmem
    · exact h.nodup
    · refine nodup_append.mpr ⟨h.nodup, nodup_singleton key, ?_⟩
      intro k hk k' hk' heq
      exact hmem (mem_singleton.mp hk' ▸ heq ▸ hk)
  · rw [map_fst_updateChild]
    split_ifs with hmem
    · exact h.marker
    · intro hmarker
      rcases mem_append.mp hmarker with hin | hin
      · exact h.marker hin
      · exact hkey (mem_singleton.mp hin).symm

theorem childrenUpdate_updateChild {update : StatsNode → StatsNode × Bool}
    (hkey : key ≠ listMarker) (h : ∀ child, NodeUpdate shapes (key :: path) child (update child))
    (children : List (Bytes × StatsNode)) :
    ChildrenUpdate shapes path children (updateChild key update children) := by
  refine ⟨⟨GoodKeys.updateChild hkey, fun k => ?_⟩, fun hev => ⟨key, ?_⟩⟩
  · rw [childOf_updateChild]
    split_ifs with hk
    · rw [hk]
      exact (h _).grows
    · exact Grows.refl _
  · rw [childOf_updateChild, if_pos rfl]
    rw [snd_updateChild] at hev
    exact (h _).evidence hev

theorem nodeUpdate_addScalar (mask : Nat) : NodeUpdate shapes path stats (stats.addScalar mask) :=
  ⟨grows_of_parts id (fun _ => rfl) .inl (Grows.refl _) (GrowsChildren.refl _), fun _ => rfl⟩

theorem or_evidence {new : Bool} : new = true → (old || new) = true :=
  fun h => Bool.or_eq_true _ _ ▸ .inr h

theorem evidence_or {new : Bool} : old = true → (old || new) = true :=
  fun h => Bool.or_eq_true _ _ ▸ .inl h

theorem nodeUpdate_addArray {elem : StatsNode × Bool}
    (h : NodeUpdate shapes (listMarker :: path) (stats.elem.getD .empty) elem) :
    NodeUpdate shapes path stats (stats.addArray elem) :=
  ⟨grows_of_parts evidence_or evidence_or .inl h.grows (GrowsChildren.refl _), or_evidence⟩

theorem nodeUpdate_addObject {children : List (Bytes × StatsNode) × Bool}
    (h : ChildrenUpdate shapes path stats.children children) :
    NodeUpdate shapes path stats (stats.addObject children) := by
  refine ⟨grows_of_parts id evidence_or (fun hs => ?_) (Grows.refl _) h.grows, or_evidence⟩
  rcases Bool.or_eq_true _ _ ▸ hs with hs | hev
  · exact .inl hs
  · exact .inr (.inr (h.evidence hev))

theorem NodeUpdate.of_flags {isStruct isList : Bool} {r : StatsNode × Bool}
    (hlist : stats.isList = true → isList = true)
    (hstruct : isStruct = true → stats.isStruct = true ∨ path ∈ shapes.structs)
    (h : NodeUpdate shapes path { stats with isStruct, isList } r) :
    NodeUpdate shapes path stats r := by
  refine ⟨Grows.trans ?_ h.grows, h.evidence⟩
  refine grows_of_parts hlist id (fun hs => ?_) (Grows.refl _) (GrowsChildren.refl _)
  exact (hstruct hs).imp_right .inl

/-- Wrapping under the default key is an update of nodes. -/
theorem nodeUpdate_wrapped {a : DepthState} (hdefault : defaultKey ≠ listMarker)
    (hdirect : ∀ path depth stats, a.Le depth →
      NodeUpdate shapes path stats (direct path depth stats)) :
    ∀ (fuel : Nat) (path : Path) (depth : DepthState) (stats : StatsNode), a.Le depth →
    NodeUpdate shapes path stats
    (wrapped shapes defaultKey shape direct fuel path depth stats) := by
  intro fuel
  induction fuel with
  | zero => exact hdirect
  | succ fuel ih =>
    intro path depth stats hle
    rw [wrapped]
    split_ifs with hlist harray hstruct hobject
    · exact (hdirect _ _ _ hle).of_flags (fun _ => rfl) .inl
    · have helem := ih (listMarker :: path) depth (stats.elem.getD .empty) hle
      exact ⟨grows_of_parts (fun _ => rfl) evidence_or .inl helem.grows (GrowsChildren.refl _),
        or_evidence⟩
    · exact (hdirect _ _ _ hle).of_flags id fun _ => .inr hstruct
    · have hchildren := @childrenUpdate_updateChild _ path _ _ hdefault
        (fun child => ih (defaultKey :: path) depth.enterObject child hle.below) stats.children
      exact ⟨grows_of_parts id evidence_or (fun _ => .inr (.inl hstruct)) (Grows.refl _)
        hchildren.grows, or_evidence⟩
    · exact hdirect _ _ _ hle

/-- A value updates the nodes where the second pass counts it, at the depth its keys are
taken at or below. -/
def UpdatesNodes (opts : Options) (shapes : Shapes) (v : Value) : Prop :=
  ∀ (a b : DepthState) (path : Path) (stats : StatsNode), a.Le b → listMarker ∉ v.keys opts a →
    NodeUpdate shapes path stats (updateStatsValue opts shapes v path b stats)

/-- Recording elements is an update of nodes. -/
theorem nodeUpdate_elements (h : ∀ v ∈ vs, UpdatesNodes opts shapes v) (hab : a.Le b)
    (hkeys : listMarker ∉ elementKeys opts a vs) (path : Path) : ∀ stats,
    NodeUpdate shapes path stats (updateStatsElements opts shapes vs path b stats) := by
  rw [not_mem_elementKeys] at hkeys
  induction vs with
  | nil => exact NodeUpdate.refl
  | cons v vs ih =>
    intro stats
    have hv := h v mem_cons_self _ _ path stats (hab.enterValue v) (hkeys v mem_cons_self)
    have hrest := ih (fun w hw => h w (mem_cons_of_mem v hw))
      (fun w hw => hkeys w (mem_cons_of_mem v hw))
      (updateStatsValue opts shapes v path (enterValueDepth b v) stats).1
    rw [updateStatsElements]
    refine ⟨hv.grows.trans hrest.grows, fun hev => ?_⟩
    rcases Bool.or_eq_true _ _ ▸ hev with hev | hev
    · exact (hrest.grows []).evidence (hv.evidence hev)
    · exact hrest.evidence hev

theorem ChildrenUpdate.then {children : List (Bytes × StatsNode)}
    {r r' : List (Bytes × StatsNode) × Bool} (h : ChildrenUpdate shapes path children r)
    (h' : ChildrenUpdate shapes path r.1 r') :
    ChildrenUpdate shapes path children (r'.1, r.2 || r'.2) := by
  refine ⟨h.grows.trans h'.grows, fun hev => ?_⟩
  rcases Bool.or_eq_true _ _ ▸ hev with hev | hev
  · obtain ⟨k, hk⟩ := h.evidence hev
    exact ⟨k, (h'.grows.child k []).evidence hk⟩
  · exact h'.evidence hev

/-- Recording fields is an update of children. -/
theorem childrenUpdate_fields (h : ∀ f ∈ fs, UpdatesNodes opts shapes f.2) (hab : a.Le b)
    (hkeys : listMarker ∉ fieldKeys opts a fs) (path : Path) : ∀ children,
    ChildrenUpdate shapes path children (updateStatsFields opts shapes fs path b children) := by
  induction fs with
  | nil => exact ChildrenUpdate.refl
  | cons f fs ih =>
    intro children
    obtain ⟨key, v⟩ := f
    obtain ⟨hkey, hkeys⟩ := not_mem_fieldKeys_cons.mp hkeys
    rw [updateStatsFields]
    refine ChildrenUpdate.then ?_ (ih (fun g hg => h g (mem_cons_of_mem _ hg)) hkeys _)
    split_ifs with hempty hflat
    · exact ChildrenUpdate.refl children
    · exact childrenUpdate_updateChild (flattened_ne_listMarker key)
        (fun child => nodeUpdate_addScalar kStr) children
    · -- what is not flattened here is not flattened higher up
      obtain ⟨hne, hin⟩ := hkey (Bool.not_eq_true _ ▸ hempty)
        (Bool.eq_false_iff.mpr fun hseen => hflat (shouldFlattenNested_mono hab hseen))
      exact childrenUpdate_updateChild hne.symm
        (fun child => h (key, v) mem_cons_self _ _ _ child (hab.enterValue v) hin) children

/-- **One value**: no node loses anything, and a new struct is marked or has a
field. -/
theorem updatesNodes (hdefault : opts.defaultKeyName ≠ listMarker) (v : Value) :
    UpdatesNodes opts shapes v := by
  induction v with
  | null => exact fun a b path stats _ _ => NodeUpdate.refl stats
  | bool | int | float | string =>
    intro a b path stats hab _
    exact nodeUpdate_wrapped hdefault (fun _ _ _ _ => nodeUpdate_addScalar _) _ _ _ _ hab
  | array vs ih =>
    intro a b path stats hab hkeys
    refine nodeUpdate_wrapped hdefault (fun _ _ _ hle => nodeUpdate_addArray ?_) _ _ _ _ hab
    exact nodeUpdate_elements ih hle hkeys _ _
  | object fs ih =>
    intro a b path stats hab hkeys
    refine nodeUpdate_wrapped hdefault (fun _ _ _ hle => nodeUpdate_addObject ?_) _ _ _ _ hab
    exact childrenUpdate_fields ih hle hkeys _ _

theorem childrenUpdate_object (hdefault : opts.defaultKeyName ≠ listMarker)
    (hkeys : listMarker ∉ fieldKeys opts a fs) (path : Path) : ∀ children,
    ChildrenUpdate shapes path children (updateStatsFields opts shapes fs path a children) :=
  childrenUpdate_fields (fun f _ => updatesNodes hdefault f.2) (DepthState.Le.refl a) hkeys path

end Updates

/-! ### The second pass finds the evidence of the first -/

section Evidence

variable {opts : Options} {shapes : Shapes} {a b depth : DepthState} {marked path : Path}

/-- Wrapping leads down, and keeps the evidence. -/
theorem snd_wrapped
    (hdirect : ∀ path depth stats, a.Le depth → (direct path depth stats).2 = true) :
    ∀ (fuel : Nat) (path : Path) (depth : DepthState) (stats : StatsNode), a.Le depth →
    (wrapped shapes defaultKey shape direct fuel path depth stats).2 = true := by
  intro fuel
  induction fuel with
  | zero => exact hdirect
  | succ fuel ih =>
    intro path depth stats hle
    rw [wrapped]
    split_ifs
    · exact hdirect _ _ _ hle
    · exact ih _ _ _ hle
    · exact hdirect _ _ _ hle
    · show (updateChild _ _ _).2 = true
      rw [snd_updateChild]
      exact ih _ _ _ hle.below
    · exact hdirect _ _ _ hle

/-- A value whose evidence the first pass has seen at some depth gives evidence
wherever the second pass counts it, at that depth or below. -/
def SeenBelow (opts : Options) (shapes : Shapes) (v : Value) : Prop :=
  ∀ (marked path : Path) (a b : DepthState) (stats : StatsNode), a.Le b →
    valueMarks opts v marked a ≠ [] → (updateStatsValue opts shapes v path b stats).2 = true

theorem snd_updateStatsElements (h : ∀ v ∈ vs, SeenBelow opts shapes v) (hab : a.Le b) :
    ∀ stats, elementMarks opts vs marked a ≠ [] →
    (updateStatsElements opts shapes vs path b stats).2 = true := by
  induction vs with
  | nil => exact fun _ hmarks => absurd rfl hmarks
  | cons v vs ih =>
    intro stats hmarks
    rw [updateStatsElements, Bool.or_eq_true]
    by_cases hv : valueMarks opts v marked (enterValueDepth a v) = []
    · right
      apply ih fun w hw => h w (mem_cons_of_mem v hw)
      rwa [elementMarks, hv, nil_append] at hmarks
    · left
      exact h v mem_cons_self _ _ _ _ _ (hab.enterValue v) hv

theorem snd_updateStatsFields (h : ∀ f ∈ fs, SeenBelow opts shapes f.2) (hab : a.Le b) :
    ∀ children, fieldMarks opts fs marked a ≠ [] →
    (updateStatsFields opts shapes fs path b children).2 = true := by
  induction fs with
  | nil => exact fun _ hmarks => absurd rfl hmarks
  | cons f fs ih =>
    intro children hmarks
    obtain ⟨key, v⟩ := f
    have hrest := ih fun g hg => h g (mem_cons_of_mem _ hg)
    rw [fieldMarks] at hmarks
    rw [updateStatsFields, Bool.or_eq_true]
    split_ifs at hmarks ⊢ with hempty hflat hseen hseen
    · exact .inr (hrest _ hmarks)
    · left
      rw [snd_updateChild]
      rfl
    · left
      rw [snd_updateChild]
      rfl
    · exact absurd (shouldFlattenNested_mono hab hseen) hflat
    · by_cases hv : valueMarks opts v (key :: marked) (enterValueDepth a v) = []
      · right
        apply hrest
        rwa [hv, nil_append] at hmarks
      · left
        rw [snd_updateChild]
        exact h (key, v) mem_cons_self _ _ _ _ _ (hab.enterValue v) hv

/-- **Evidence is found again**: a deeper place flattens more, and a flattened
field is evidence. -/
theorem seenBelow (v : Value) : SeenBelow opts shapes v := by
  induction v with
  | null => exact fun _ _ _ _ _ _ hmarks => absurd rfl hmarks
  | bool | int | float | string =>
    intro marked path a b stats _ _
    exact snd_wrapped (a := b) (fun _ _ _ _ => rfl) _ _ _ _ (DepthState.Le.refl b)
  | array vs ih =>
    intro marked path a b stats hab hmarks
    have hvs : elementMarks opts vs (listMarker :: marked) a ≠ [] := fun hnil =>
      hmarks (by rw [valueMarks, closeMarks, if_pos hnil])
    rw [updateStatsValue]
    apply snd_wrapped _ _ _ _ _ hab
    exact fun path depth stats hle => snd_updateStatsElements ih hle _ hvs
  | object fs ih =>
    intro marked path a b stats hab hmarks
    have hfs : fieldMarks opts fs marked a ≠ [] := fun hnil =>
      hmarks (by rw [valueMarks, closeMarks, if_pos hnil])
    rw [updateStatsValue]
    apply snd_wrapped _ _ _ _ _ hab
    exact fun path depth stats hle => snd_updateStatsFields ih hle _ hfs

end Evidence

/-! ### What a mark leaves in the statistics -/

/-- What a node shows of a container with evidence that has updated it. -/
def StatsNode.Records (stats : StatsNode) : ValueShape → Prop
  | .array => stats.isList = true
  | .object => stats.isList = true ∨ stats.HasField
  | .scalar => True

theorem Grows.records {shapes : Shapes} {path : Path} {a b : StatsNode} (h : Grows shapes path a b)
    {steps : List StatsStep} {shape : ValueShape} (ha : (a.walk steps).Records shape) :
    (b.walk steps).Records shape := by
  cases shape with
  | array => exact (h steps).list ha
  | object => exact ha.imp (h steps).list h.hasField
  | scalar => trivial

section Marks

variable {opts : Options} {shapes : Shapes} {path q : Path} {depth : DepthState}
  {shape : ValueShape}

theorem mem_elementMarks (h : (q, shape) ∈ elementMarks opts vs path depth) :
    ∃ v ∈ vs, (q, shape) ∈ valueMarks opts v path (enterValueDepth depth v) := by
  induction vs with
  | nil => cases h
  | cons v vs ih =>
    rw [elementMarks] at h
    rcases mem_append.mp h with h | h
    · exact ⟨v, mem_cons_self, h⟩
    · obtain ⟨w, hw, h⟩ := ih h
      exact ⟨w, mem_cons_of_mem v hw, h⟩

theorem mem_fieldMarks (hshape : shape ≠ .scalar) (h : (q, shape) ∈ fieldMarks opts fs path depth) :
    ∃ f ∈ fs, f.2.containerIsEmpty = false ∧ shouldFlattenNested opts depth f.2 = false ∧
      (q, shape) ∈ valueMarks opts f.2 (f.1 :: path) (enterValueDepth depth f.2) := by
  induction fs with
  | nil => cases h
  | cons f fs ih =>
    obtain ⟨key, v⟩ := f
    rw [fieldMarks] at h
    rcases mem_append.mp h with h | h
    · split_ifs at h with hempty hflat
      · cases h
      · cases mem_singleton.mp h
        exact absurd rfl hshape
      · exact ⟨_, mem_cons_self, Bool.not_eq_true _ ▸ hempty, Bool.not_eq_true _ ▸ hflat, h⟩
    · obtain ⟨g, hg, h⟩ := ih h
      exact ⟨g, mem_cons_of_mem _ hg, h⟩

/-- The marks of a value are made at its path and below. -/
theorem suffix_of_mem_valueMarks (hshape : shape ≠ .scalar) (v : Value) :
    ∀ {path : Path} {depth : DepthState}, (q, shape) ∈ valueMarks opts v path depth →
      path <:+ q := by
  induction v with
  | null => intro path depth h; cases h
  | bool | int | float | string =>
    intro path depth h
    cases mem_singleton.mp h
    exact suffix_refl _
  | array vs ih =>
    intro path depth h
    rcases (mem_closeMarks h).2 with h | h
    · obtain ⟨v, hv, h⟩ := mem_elementMarks h
      exact (suffix_cons _ _).trans (ih v hv h)
    · cases h
      exact suffix_refl _
  | object fs ih =>
    intro path depth h
    rcases (mem_closeMarks h).2 with h | h
    · obtain ⟨f, hf, -, -, h⟩ := mem_fieldMarks hshape h
      exact (suffix_cons _ _).trans (ih f hf h)
    · cases h
      exact suffix_refl _

/-- The containers of a value are recorded by the live nodes at their paths. -/
def RecordsMarks (opts : Options) (shapes : Shapes) (v : Value) : Prop :=
  ∀ (path : Path) (depth : DepthState) (stats : StatsNode), listMarker ∉ v.keys opts depth →
    shapes.Has (valueMarks opts v path depth) → ∀ (steps : List StatsStep) (shape : ValueShape),
    shape ≠ .scalar → Live shapes path steps →
    (pathAfter path steps, shape) ∈ valueMarks opts v path depth →
    ((updateStatsValue opts shapes v path depth stats).1.walk steps).Records shape

/-- A container below the fields of an object lies below a child of its node. -/
theorem child_of_mem_fieldMarks (hshape : shape ≠ .scalar)
    (hkeys : listMarker ∉ fieldKeys opts depth fs)
    (h : (pathAfter path steps, shape) ∈ fieldMarks opts fs path depth) :
    ∃ key rest, steps = .child key :: rest := by
  obtain ⟨f, hf, hempty, hflat, hin⟩ := mem_fieldMarks hshape h
  obtain ⟨step, rest, rfl, hname⟩ := step_of_suffix (suffix_of_mem_valueMarks hshape f.2 hin)
  cases step with
  | elem => exact absurd hname (not_mem_fieldKeys.mp hkeys f hf hempty hflat).1
  | child key => exact ⟨key, rest, rfl⟩

/-- The marks of a list's elements are recorded. -/
theorem elements_record (hdefault : opts.defaultKeyName ≠ listMarker)
    (hkeys : listMarker ∉ elementKeys opts depth vs) (h : ∀ v ∈ vs, RecordsMarks opts shapes v)
    (hhas : shapes.Has (elementMarks opts vs path depth)) (hshape : shape ≠ .scalar)
    (hlive : Live shapes path steps)
    (hmark : (pathAfter path steps, shape) ∈ elementMarks opts vs path depth) : ∀ stats,
    ((updateStatsElements opts shapes vs path depth stats).1.walk steps).Records shape := by
  induction vs with
  | nil => cases hmark
  | cons v vs ih =>
    intro stats
    have hrest := fun w hw => h w (mem_cons_of_mem v hw)
    rw [elementKeys, mem_append, not_or] at hkeys
    obtain ⟨hvkeys, hkeysrest⟩ := hkeys
    rw [elementMarks] at hmark hhas
    rw [updateStatsElements]
    rcases mem_append.mp hmark with hmark | hmark
    · -- later elements keep what this one has left
      have hgrows := nodeUpdate_elements
        (fun w _ => @updatesNodes opts shapes hdefault w) (DepthState.Le.refl depth) hkeysrest path
        (updateStatsValue opts shapes v path (enterValueDepth depth v) stats).1
      exact hgrows.grows.records (h v mem_cons_self _ _ _ hvkeys
        (hhas.mono (subset_append_left _ _)) _ _ hshape hlive hmark)
    · exact ih hkeysrest hrest (hhas.mono (subset_append_right _ _)) hmark _

/-- The marks of an object's fields are recorded. -/
theorem fields_record (hdefault : opts.defaultKeyName ≠ listMarker)
    (hkeys : listMarker ∉ fieldKeys opts depth fs)
    (h : ∀ f ∈ fs, RecordsMarks opts shapes f.2) (hhas : shapes.Has (fieldMarks opts fs path depth))
    (hshape : shape ≠ .scalar) (hlive : Live shapes (key :: path) steps)
    (hmark : (pathAfter (key :: path) steps, shape) ∈ fieldMarks opts fs path depth) : ∀ children,
    ((childOf (updateStatsFields opts shapes fs path depth children).1 key).walk steps).Records
      shape := by
  induction fs with
  | nil => cases hmark
  | cons f fs ih =>
    intro children
    obtain ⟨k, v⟩ := f
    have hrest := fun g hg => h g (mem_cons_of_mem _ hg)
    obtain ⟨hvkeys, hkeysrest⟩ := not_mem_fieldKeys_cons.mp hkeys
    rw [fieldMarks] at hmark hhas
    rw [updateStatsFields]
    rcases mem_append.mp hmark with hmark | hmark
    · refine ((childrenUpdate_object hdefault hkeysrest _ _).grows.child key).records ?_
      have hhas := hhas.mono (subset_append_left _ _)
      split_ifs at hmark hhas ⊢ with hempty hflat
      · cases hmark
      · exact absurd (Prod.mk.inj (mem_singleton.mp hmark)).2 hshape
      · -- the field with the mark is the one of the path
        have hsuffix := suffix_of_mem_valueMarks hshape v hmark
        have hsame := (suffix_of_suffix_length_le hsuffix
          (suffix_pathAfter steps (key :: path)) (by simp)).eq_of_length (by simp)
        obtain rfl : k = key := (cons.inj hsame).1
        show ((childOf (updateChild _ _ _).1 _).walk steps).Records shape
        rw [childOf_updateChild, if_pos rfl]
        have hinside := (hvkeys (Bool.not_eq_true _ ▸ hempty) (Bool.not_eq_true _ ▸ hflat)).2
        exact h (k, v) mem_cons_self _ _ _ hinside hhas _ _ hshape hlive hmark
    · exact ih hkeysrest hrest (hhas.mono (subset_append_right _ _)) hmark _

/-- **Containers are recorded where they stand**, as long as that place is
read. -/
theorem recordsMarks (hdefault : opts.defaultKeyName ≠ listMarker) (v : Value) :
    RecordsMarks opts shapes v := by
  induction v with
  | null => intro path depth stats _ _ steps shape _ _ hmark; cases hmark
  | bool | int | float | string =>
    intro path depth stats _ _ steps shape hshape _ hmark
    exact absurd (Prod.mk.inj (mem_singleton.mp hmark)).2 hshape
  | array vs ih =>
    intro path depth stats hkeys hhas steps shape hshape hlive hmark
    obtain ⟨hmarks, hmark⟩ := mem_closeMarks hmark
    have hlist : path ∈ shapes.lists := hhas.list (self_mem_closeMarks hmarks)
    rw [updateStatsValue, wrapped_eq, if_pos hlist, if_pos rfl]
    rcases hmark with hmark | hmark
    · obtain ⟨v, hv, hin⟩ := mem_elementMarks hmark
      obtain ⟨step, rest, rfl, hname⟩ :=
        step_of_suffix (suffix_of_mem_valueMarks hshape v hin)
      cases step with
      | child key => exact absurd hname hlive.2.1
      | elem =>
        exact elements_record hdefault hkeys ih
          (hhas.mono (subset_closeMarks _ _ _)) hshape hlive hmark _
    · obtain ⟨hpath, rfl⟩ := Prod.mk.inj hmark
      obtain rfl := eq_nil_of_pathAfter hpath
      rfl
  | object fs ih =>
    intro path depth stats hkeys hhas steps shape hshape hlive hmark
    obtain ⟨hmarks, hmark⟩ := mem_closeMarks hmark
    rcases hmark with hmark | hmark
    · obtain ⟨key, rest, rfl⟩ := child_of_mem_fieldMarks hshape hkeys hmark
      have hstruct := hhas.struct (self_mem_closeMarks hmarks)
      rw [updateStatsValue, wrapped_eq, if_neg hlive.1, if_pos hstruct, if_pos rfl]
      exact fields_record hdefault hkeys ih
        (hhas.mono (subset_closeMarks _ _ _)) hshape hlive.2.2 hmark _
    · obtain ⟨hpath, rfl⟩ := Prod.mk.inj hmark
      obtain rfl := eq_nil_of_pathAfter hpath
      have hstruct := hhas.struct (self_mem_closeMarks hmarks)
      by_cases hlist : path ∈ shapes.lists
      · rw [updateStatsValue, wrapped_eq, if_pos hlist, if_neg (by simp)]
        exact .inl rfl
      · rw [updateStatsValue, wrapped_eq, if_neg hlist, if_pos hstruct, if_pos rfl]
        right
        exact (childrenUpdate_object hdefault hkeys _ _).evidence (snd_updateStatsFields
          (fun f _ => seenBelow f.2) (DepthState.Le.refl depth) _ hmarks)

end Marks

/-! ### Runs of rows -/

/-- What the statistics say of one node and of the marks at its path. -/
structure SoundNode (shapes : Shapes) (path : Path) (stats : StatsNode) : Prop where
  list : path ∈ shapes.lists → stats.Records .array
  struct : path ∈ shapes.structs → stats.Records .object
  flag : stats.isStruct = true → stats.Records .object

/-- The nodes that are read are sound. -/
def Sound (shapes : Shapes) (path : Path) (stats : StatsNode) : Prop :=
  ∀ steps, Live shapes path steps → SoundNode shapes (pathAfter path steps) (stats.walk steps)

/-- The keys are good everywhere. -/
def Keyed (stats : StatsNode) : Prop := ∀ steps, GoodKeys (stats.walk steps).children

/-- The root as a node. -/
def InferenceContext.node (ctx : InferenceContext) : StatsNode :=
  { StatsNode.empty with children := ctx.root }

/-- What inference keeps between rows: sound nodes with good keys. -/
structure InferenceContext.Sound (ctx : InferenceContext) : Prop where
  nodes : SchemaSanitizer.Sound ctx.shapes [] ctx.node
  keyed : Keyed ctx.node

section Rows

variable {opts : Options} {ctx : InferenceContext} {row : Row}

theorem walk_empty (steps : List StatsStep) : StatsNode.empty.walk steps = .empty := by
  induction steps with
  | nil => rfl
  | cons step steps ih =>
    cases step with
    | elem => exact ih
    | child key => exact ih

theorem InferenceContext.sound_empty : ({} : InferenceContext).Sound := by
  have hwalk : ∀ steps, ({} : InferenceContext).node.walk steps = .empty := walk_empty
  constructor
  · intro steps _
    refine ⟨fun h => absurd h (Finset.notMem_empty _), fun h =>
      absurd h (Finset.notMem_empty _), ?_⟩
    rw [hwalk]
    exact fun h => nomatch h
  · intro steps
    rw [hwalk]
    exact ⟨nodup_nil, not_mem_nil⟩

/-- **One row keeps the statistics sound.** -/
theorem InferenceContext.Sound.scanRow (hdefault : opts.defaultKeyName ≠ listMarker)
    (hkeys : listMarker ∉ fieldKeys opts {} row) (h : ctx.Sound) :
    (scanRow opts ctx row).Sound := by
  set next := SchemaSanitizer.scanRow opts ctx row
  have hshapes : next.shapes = ctx.shapes.add (rowMarks opts row) :=
    scanShapesRow_eq opts ctx.shapes row
  have hupdate : ChildrenUpdate next.shapes [] ctx.root _ :=
    childrenUpdate_object hdefault hkeys [] ctx.root
  have hgrows : Grows next.shapes [] ctx.node next.node :=
    grows_of_parts id id .inl (Grows.refl _) hupdate.grows
  have hhas : next.shapes.Has (fieldMarks opts row [] {}) := by
    rw [Shapes.has_iff, hshapes]
    exact ⟨fun p hp => Shapes.mem_lists_add.mpr (.inr hp),
      fun p hp => Shapes.mem_structs_add.mpr (.inr hp)⟩
  -- a container of this row is recorded by this row
  have hnew : ∀ steps shape, shape ≠ .scalar → Live next.shapes [] steps →
      (pathAfter [] steps, shape) ∈ rowMarks opts row → (next.node.walk steps).Records shape := by
    intro steps shape hshape hlive hmark
    obtain ⟨key, rest, rfl⟩ := child_of_mem_fieldMarks hshape hkeys hmark
    exact fields_record hdefault hkeys (fun g _ => recordsMarks hdefault g.2) hhas
      hshape hlive.2.2 hmark ctx.root
  -- and one of earlier rows was recorded before
  have hold : ∀ steps, Live next.shapes [] steps →
      SoundNode ctx.shapes (pathAfter [] steps) (ctx.node.walk steps) := by
    intro steps hlive
    refine h.nodes steps (Live.mono ?_ steps [] hlive)
    rw [hshapes]
    exact fun p hp => Shapes.mem_lists_add.mpr (.inl hp)
  have hlist : ∀ steps, Live next.shapes [] steps →
      pathAfter [] steps ∈ next.shapes.lists → (next.node.walk steps).Records .array := by
    intro steps hlive hmem
    rw [hshapes, Shapes.mem_lists_add] at hmem
    rcases hmem with hmem | hmem
    · exact hgrows.records ((hold steps hlive).list hmem)
    · exact hnew steps .array (by simp) hlive hmem
  have hstruct : ∀ steps, Live next.shapes [] steps →
      pathAfter [] steps ∈ next.shapes.structs → (next.node.walk steps).Records .object := by
    intro steps hlive hmem
    rw [hshapes, Shapes.mem_structs_add] at hmem
    rcases hmem with hmem | hmem
    · exact hgrows.records ((hold steps hlive).struct hmem)
    · exact hnew steps .object (by simp) hlive hmem
  refine ⟨fun steps hlive => ⟨hlist steps hlive, hstruct steps hlive, fun hflag => ?_⟩,
    fun steps => (hgrows steps).keys (h.keyed steps)⟩
  rcases (hgrows steps).struct hflag with hflag | hmark | hfield
  · exact @Grows.records _ _ _ _ hgrows _ .object ((hold steps hlive).flag hflag)
  · exact hstruct steps hlive hmark
  · exact .inr hfield

/-- **A run of rows keeps the statistics sound.** -/
theorem scanRows_sound (hdefault : opts.defaultKeyName ≠ listMarker) :
    ∀ (rows : List Row) {ctx : InferenceContext},
    (∀ row ∈ rows, listMarker ∉ fieldKeys opts {} row) →
    ctx.Sound → (scanRows opts ctx rows).Sound := by
  intro rows
  induction rows with
  | nil => exact fun _ h => h
  | cons row rows ih =>
    intro ctx hkeys h
    exact ih (fun r hr => hkeys r (mem_cons_of_mem row hr))
      (h.scanRow hdefault (hkeys row mem_cons_self))

end Rows

/-! ### The inferred schema -/

/-- What the schema of columns may hold at one place: a scalar that is not null,
a struct with fields that all have a type, or a list of something that is not
itself a list. -/
def WellFormedNode : LogicalType → Prop
  | .scalar k => k ≠ .null
  | .struct fields => fields ≠ [] ∧ ∀ f ∈ fields, f.type ≠ none
  | .list none => False
  | .list (some (.list _)) => False
  | .list (some _) => True

/-- Every field has a type, and every type in the schema is well formed. -/
def LogicalSchema.WellFormed (schema : LogicalSchema) : Prop :=
  ∀ f ∈ schema.fields, ∃ t, f.type = some t ∧ t.Forall WellFormedNode

theorem scalarTypeFromMask_ne_null (mask : Nat) : scalarTypeFromMask mask ≠ .null := by
  unfold scalarTypeFromMask
  split_ifs <;> simp

section Types

variable {opts : Options} {shapes : Shapes} {path : Path} {stats : StatsNode}

theorem childTypesFromStats_eq (opts : Options) : ∀ children : List (Bytes × StatsNode),
    childTypesFromStats opts children =
      (children.filter (·.2.hasEvidence)).map fun c => (c.1, typeFromStats opts c.2)
  | [] => rfl
  | (key, child) :: children => by
    rw [childTypesFromStats, childTypesFromStats_eq opts children, filter_cons]
    split <;> rfl

theorem typeFromStats_eq (opts : Options) (stats : StatsNode) : typeFromStats opts stats =
    if stats.isList then .list (some (elemTypeFromStats opts stats.elem))
    else if stats.isStruct then
      .struct (fieldsOfTypes (cleanSiblingFieldNames opts.toNameOptions
        ((childTypesFromStats opts stats.children).map Prod.fst))
        (childTypesFromStats opts stats.children))
    else .scalar (scalarTypeFromMask stats.scalarKindMask) := by
  obtain ⟨_, _, _, _, _, _⟩ := stats
  rw [typeFromStats]

theorem type_of_mem_fieldsOfTypes {names : List Bytes} {types : List (Bytes × LogicalType)}
    {f : LogicalField} (h : f ∈ fieldsOfTypes names types) : ∃ t ∈ types, f.type = some t.2 := by
  obtain ⟨i, hi, rfl⟩ := getElem_of_mem h
  rw [fieldsOfTypes, length_zipWith] at hi
  refine ⟨types[i], getElem_mem _, ?_⟩
  simp [fieldsOfTypes]

theorem Sound.elem (h : Sound shapes path stats) :
    Sound shapes (listMarker :: path) (stats.elem.getD .empty) :=
  fun steps hlive => h (.elem :: steps) hlive

theorem Sound.child {c : Bytes × StatsNode} (h : Sound shapes path stats) (hk : Keyed stats)
    (hlist : path ∉ shapes.lists) (hc : c ∈ stats.children) : Sound shapes (c.1 :: path) c.2 := by
  have hkeys : GoodKeys stats.children := hk []
  have hne : c.1 ≠ listMarker := fun heq => hkeys.marker (heq ▸ mem_map_of_mem hc)
  intro steps hlive
  have hwalk := h (.child c.1 :: steps) ⟨hlist, hne, hlive⟩
  rw [← childOf_of_mem hkeys.nodup hc]
  exact hwalk

theorem Keyed.elem (h : Keyed stats) : Keyed (stats.elem.getD .empty) :=
  fun steps => h (.elem :: steps)

theorem Keyed.child {c : Bytes × StatsNode} (h : Keyed stats) (hc : c ∈ stats.children) :
    Keyed c.2 := by
  intro steps
  rw [← childOf_of_mem (h []).nodup hc]
  exact h (.child c.1 :: steps)

theorem childTypesFromStats_ne_nil (h : stats.HasField) :
    childTypesFromStats opts stats.children ≠ [] := by
  obtain ⟨key, hkey⟩ := h
  rw [childTypesFromStats_eq]
  rcases childOf_eq_empty_or_mem key stats.children with he | hmem
  · rw [he] at hkey
    cases hkey
  · intro hnil
    have hin : (key, childOf stats.children key) ∈ stats.children.filter (·.2.hasEvidence) :=
      mem_filter.mpr ⟨hmem, hkey⟩
    rw [map_eq_nil_iff.mp hnil] at hin
    cases hin

theorem elemTypeFromStats_ne_list {value : Option LogicalType} :
    ∀ elem : Option StatsNode, elemTypeFromStats opts elem ≠ .list value
  | none => by simp [elemTypeFromStats]
  | some ⟨mask, isStruct, isList, hasEvidence, children, elem⟩ => by
    rw [elemTypeFromStats, listElemRequiresStringFallback, typeFromStats]
    cases isList with
    | true => simp
    | false =>
      simp only [Bool.false_eq_true, if_false]
      split_ifs <;> simp

theorem wellFormedNode_listSome {t : LogicalType} (h : ∀ value, t ≠ .list value) :
    WellFormedNode (.list (some t)) := by
  cases t with
  | scalar | struct => trivial
  | list value => exact absurd rfl (h value)

/-- Induction over statistics: a node is reached from its children and its
elements. -/
theorem StatsNode.ind {motive : StatsNode → Prop}
    (mk : ∀ stats : StatsNode, (∀ c ∈ stats.children, motive c.2) →
      (∀ e, stats.elem = some e → motive e) → motive stats) : ∀ stats, motive stats := by
  intro stats
  refine @StatsNode.rec motive (fun cs => ∀ c ∈ cs, motive c.2)
    (fun e => ∀ s, e = some s → motive s)
    (fun c => motive c.2) ?node ?nil ?cons ?none ?some ?pair stats
  case node =>
    intro mask isStruct isList hasEvidence children elem ihchildren ihelem
    exact mk ⟨mask, isStruct, isList, hasEvidence, children, elem⟩ ihchildren ihelem
  case nil => exact fun c hc => absurd hc not_mem_nil
  case cons =>
    intro c cs ihc ihcs d hd
    rcases mem_cons.mp hd with rfl | hd
    · exact ihc
    · exact ihcs d hd
  case none => exact fun s hs => nomatch hs
  case some =>
    intro e ih s hs
    cases hs
    exact ih
  case pair => exact fun key child ih => ih

/-- **Sound statistics are read as well-formed types.** -/
theorem typeFromStats_wellFormed (stats : StatsNode) : ∀ path, Sound shapes path stats →
    Keyed stats → (typeFromStats opts stats).Forall WellFormedNode := by
  induction stats using StatsNode.ind with
  | mk stats ihchildren ihelem =>
    intro path h hk
    have hnode : SoundNode shapes path stats := h [] trivial
    rw [typeFromStats_eq]
    split_ifs with hlist hstruct
    · refine forall_listSome.mpr
        ⟨wellFormedNode_listSome fun value => elemTypeFromStats_ne_list stats.elem, ?_⟩
      rcases he : stats.elem with - | e
      · exact forall_scalar.mpr (by simp [WellFormedNode])
      · have hsound := h.elem
        have hkeyed := hk.elem
        rw [he] at hsound hkeyed
        rw [elemTypeFromStats]
        split_ifs
        · exact forall_scalar.mpr (by simp [WellFormedNode])
        · exact ihelem e he _ hsound hkeyed
    · -- a struct that is not a list has a field, and its path is not marked as a list
      have hfield := (hnode.flag hstruct).resolve_left hlist
      have hunmarked : path ∉ shapes.lists := fun hmem => hlist (hnode.list hmem)
      have htypes := @childTypesFromStats_ne_nil opts _ hfield
      refine forall_struct.mpr ⟨⟨?_, fun f hf => ?_⟩, fun f hf t ht => ?_⟩
      · rw [← length_pos_iff] at htypes ⊢
        rw [fieldsOfTypes, length_zipWith, length_cleanSiblingFieldNames, length_map,
          Nat.min_self]
        exact htypes
      · obtain ⟨u, -, hu⟩ := type_of_mem_fieldsOfTypes hf
        rw [hu]
        simp
      · obtain ⟨u, hu, hft⟩ := type_of_mem_fieldsOfTypes hf
        obtain ⟨c, hc, rfl⟩ := mem_childTypesFromStats hu
        cases ht.symm.trans hft
        exact ihchildren c hc _ (h.child hk hunmarked hc) (hk.child hc)
    · exact forall_scalar.mpr (scalarTypeFromMask_ne_null _)

end Types

/-- **Inferred schemas are well formed**: where no key is the text of the list
marker, every field of the schema has a type, lists hold no lists, structs have
fields, and nothing is null. -/
theorem inferRows_wellFormed (opts : Options) (rows : List Row)
    (hdefault : opts.defaultKeyName ≠ listMarker)
    (hkeys : ∀ row ∈ rows, listMarker ∉ fieldKeys opts {} row) :
    (inferRows opts rows).WellFormed := by
  have hsound := scanRows_sound hdefault rows hkeys InferenceContext.sound_empty
  have hroot : [] ∉ (scanRows opts {} rows).shapes.lists := fun hmem =>
    absurd ((hsound.nodes [] trivial).list hmem) (by simp [StatsNode.Records, InferenceContext.node,
      StatsNode.walk, StatsNode.empty])
  intro f hf
  obtain ⟨t, ht, hft⟩ := type_of_mem_fieldsOfTypes hf
  obtain ⟨c, hc, rfl⟩ := mem_childTypesFromStats ht
  exact ⟨_, hft, typeFromStats_wellFormed c.2 _ (hsound.nodes.child hsound.keyed hroot hc)
    (hsound.keyed.child hc)⟩

/-- A list of objects, a scalar and an object at one path. -/
theorem inferRows_wellFormed_sample :
    (inferRows (textOptions 10 10)
      [[(bytes "q", .array [.object [(bytes "x", .int 5)]])], [(bytes "q", .int 7)],
        [(bytes "q", .object [(bytes "x", .object [(bytes "z", .null)])])]]).WellFormed :=
  inferRows_wellFormed (textOptions 10 10) _ (by decide) (by decide)

/-- The second row has the list marker as a key: its object `x` marks the path
of the column `x` of the list elements, and updates another node. -/
def markerKeyRows : List Row :=
  [[(bytes "q", .array [.object [(bytes "x", .int 5)]])],
    [(bytes "q", .object [(bytes "[]", .object [(bytes "x", .object [(bytes "y", .int 1)])])])],
    [(bytes "q", .array [.object [(bytes "x", .object [(bytes "z", .null)])]])]]

/-- The column `x` of the list elements has become a struct, and no object with
evidence has ever stood there. -/
theorem inferRows_empty_struct :
    (inferRows (textOptions 10 10) markerKeyRows).fields =
        [⟨bytes "q", some (.list (some (.struct [⟨bytes "x", some (.struct []), true⟩,
          ⟨bytes "field", some (.struct [⟨bytes "x", some (.struct
            [⟨bytes "y", some (.scalar .int64), true⟩]), true⟩]), true⟩]))), true⟩] ∧
      ¬ (inferRows (textOptions 10 10) markerKeyRows).WellFormed := by
  refine (fun hfields => ⟨hfields, fun hwell => ?_⟩ : _ = _ → _) (by decide +kernel)
  obtain ⟨t, ht, hall⟩ := hwell _ (by rw [hfields]; exact mem_cons_self)
  cases ht
  simp [forall_listSome, forall_struct, WellFormedNode] at hall

end SchemaSanitizer
