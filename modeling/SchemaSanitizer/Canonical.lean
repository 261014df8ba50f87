/-
SchemaSanitizer/Canonical.lean

The invariant of registry schemas.  An inferred schema (`Inferred`) is typed
everywhere, has distinct sibling names at every level, and none of them is a
versioned name.  The schemas that additive merges of such schemas can reach from
the empty registry (`Reachable`) are then in a canonical form (`Canonical`): every
version family is rooted at its unversioned field, its version numbers are
distinct, every suffix names the type of its column, and at most one member of a
family is a null or numeric scalar.

The invariant is proved in the order of the code: one step on a level keeps it
(`LevelStep.familyLevel`), so merged levels and types keep it
(`familyInvariant`); the normalizer drops nothing from such a level and only
restores the suffixes (`normalizeIntegerFloatFields_families`); sorting permutes each level.  The
consequence used everywhere is `Canonical.normalize_eq`: the normalizer leaves
a reachable schema alone.
-/
import SchemaSanitizer.MergeRules

namespace SchemaSanitizer

open Lib List

/-! ### Inferred schemas -/

/-- One level of an inferred schema. -/
structure InferredLevel (fields : List LogicalField) : Prop where
  typed : ∀ f ∈ fields, f.type ≠ none
  nodup : (fields.map FieldOf.name).Nodup
  unversioned : ∀ f ∈ fields, parseVersionedFieldName f.name = none

instance : DecidablePred InferredLevel := fun fields =>
  decidable_of_iff
    ((∀ f ∈ fields, f.type ≠ none) ∧ (fields.map FieldOf.name).Nodup ∧
      ∀ f ∈ fields, parseVersionedFieldName f.name = none)
    ⟨fun h => ⟨h.1, h.2.1, h.2.2⟩, fun h => ⟨h.typed, h.nodup, h.unversioned⟩⟩

/-- The condition on every node of an inferred schema: struct levels are
inferred levels and lists have an element type. -/
def InferredNode : LogicalType → Prop
  | .scalar _ => True
  | .struct fields => InferredLevel fields
  | .list value => value ≠ none

instance : DecidablePred InferredNode
  | .scalar _ => inferInstanceAs (Decidable True)
  | .struct fields => inferInstanceAs (Decidable (InferredLevel fields))
  | .list value => inferInstanceAs (Decidable (value ≠ none))

/-- **An inferred schema**: every field typed, every list with an element type,
sibling names pairwise distinct and not of the versioned form, at every level. -/
def LogicalSchema.Inferred (schema : LogicalSchema) : Prop :=
  (LogicalType.struct schema.fields).Forall InferredNode

instance : DecidablePred LogicalSchema.Inferred := fun schema =>
  inferInstanceAs (Decidable ((LogicalType.struct schema.fields).Forall InferredNode))

/-! ### Names of one level -/

variable {names : List Bytes}

/-- The sibling names of a registry level: distinct, every version printed by the
engine and rooted at its base name, and no version number used twice in a family. -/
structure NameFamilies (names : List Bytes) : Prop where
  nodup : names.Nodup
  printed : ∀ n ∈ names, ∀ p, parseVersionedFieldName n = some p →
    ∃ t, n = makeVersionedFieldName p.base p.version (variantSemanticType t)
  rooted : ∀ n ∈ names, ∀ p, parseVersionedFieldName n = some p →
    p.base ∈ names ∧ parseVersionedFieldName p.base = none
  versions : ∀ n ∈ names, ∀ m ∈ names, ∀ x, baseAndVersion n = some x →
    baseAndVersion m = some x → n = m

theorem nameFamilies_of_unversioned (hnodup : names.Nodup)
    (h : ∀ n ∈ names, parseVersionedFieldName n = none) : NameFamilies names where
  nodup := hnodup
  printed := by
    intro n hn p hp
    rw [h n hn] at hp
    cases hp
  rooted := by
    intro n hn p hp
    rw [h n hn] at hp
    cases hp
  versions := by
    intro n hn m hm x hx
    rw [baseAndVersion, h n hn] at hx
    cases hx

theorem NameFamilies.perm {names' : List Bytes} (h : NameFamilies names)
    (hperm : names.Perm names') : NameFamilies names' where
  nodup := hperm.nodup_iff.mp h.nodup
  printed := fun n hn => h.printed n (hperm.mem_iff.mpr hn)
  rooted := by
    intro n hn p hp
    obtain ⟨hmem, hbase⟩ := h.rooted n (hperm.mem_iff.mpr hn) p hp
    exact ⟨hperm.mem_iff.mp hmem, hbase⟩
  versions := fun n hn m hm => h.versions n (hperm.mem_iff.mpr hn) m (hperm.mem_iff.mpr hm)

/-- Adding a name nobody has: enough that it is a printed version of a present
base with a number of its own, whenever it is versioned at all. -/
theorem NameFamilies.concat {name : Bytes} (h : NameFamilies names) (hfresh : name ∉ names)
    (hnew : ∀ p, parseVersionedFieldName name = some p →
      (∃ t, name = makeVersionedFieldName p.base p.version (variantSemanticType t)) ∧
      (p.base ∈ names ∧ parseVersionedFieldName p.base = none) ∧
      ∀ m ∈ names, baseAndVersion m ≠ some (p.base, p.version)) :
    NameFamilies (names ++ [name]) where
  nodup := by
    rw [nodup_append']
    refine ⟨h.nodup, nodup_singleton name, ?_⟩
    rw [disjoint_singleton]
    exact hfresh
  printed := by
    intro n hn p hp
    rcases mem_append.mp hn with hn | hn
    · exact h.printed n hn p hp
    · rw [mem_singleton] at hn
      subst hn
      exact (hnew p hp).1
  rooted := by
    intro n hn p hp
    rcases mem_append.mp hn with hn | hn
    · obtain ⟨hmem, hbase⟩ := h.rooted n hn p hp
      exact ⟨mem_append_left _ hmem, hbase⟩
    · rw [mem_singleton] at hn
      subst hn
      obtain ⟨hmem, hbase⟩ := (hnew p hp).2.1
      exact ⟨mem_append_left _ hmem, hbase⟩
  versions := by
    -- the new name shares its number with nobody
    have hclash : ∀ m ∈ names, ∀ x, baseAndVersion name = some x → baseAndVersion m ≠ some x := by
      intro m hm x hx
      obtain ⟨p, hp, rfl⟩ := Option.map_eq_some_iff.mp hx
      exact (hnew p hp).2.2 m hm
    intro n hn m hm x hnx hmx
    simp only [mem_append, mem_singleton] at hn hm
    rcases hn with hn | rfl
    · rcases hm with hm | rfl
      · exact h.versions n hn m hm x hnx hmx
      · exact absurd hnx (hclash n hn x hmx)
    · rcases hm with hm | rfl
      · exact absurd hmx (hclash m hm x hnx)
      · rfl

/-! ### Version numbers -/

variable {fields : List LogicalField} {f : LogicalField} {t : LogicalType}

theorem two_le_nextVersion (fields : List LogicalField) (base : Bytes) :
    2 ≤ nextVersion fields base := by
  unfold nextVersion
  induction fields using reverseRecOn with
  | nil => exact le_rfl
  | append_singleton fields f ih =>
    rw [foldl_append, foldl_cons, foldl_nil]
    split
    · split
      · exact le_max_of_le_left ih
      · exact ih
    · exact ih

/-- The next version is above every version in use. -/
theorem version_lt_nextVersion {p : VersionedFieldName} (hf : f ∈ fields)
    (hp : parseVersionedFieldName f.name = some p) : p.version < nextVersion fields p.base := by
  unfold nextVersion
  induction fields using reverseRecOn with
  | nil => cases hf
  | append_singleton fields g ih =>
    rw [foldl_append, foldl_cons, foldl_nil]
    rcases mem_append.mp hf with hf | hf
    · have hlt := ih hf
      split
      · split
        · exact lt_max_of_lt_left hlt
        · exact hlt
      · exact hlt
    · rw [mem_singleton] at hf
      subst hf
      rw [hp]
      dsimp only
      rw [if_pos rfl]
      exact lt_max_of_lt_right (Nat.lt_succ_self _)

/-- A generated name is a printed version, numbered from the family's next
version on, that no sibling has. -/
theorem nextVariantName_spec (fields : List LogicalField) (base : Bytes) (t : LogicalType) :
    ∃ version, nextVersion fields base ≤ version ∧
      nextVariantName fields base t
        = makeVersionedFieldName base version (variantSemanticType t) ∧
      nextVariantName fields base t ∉ fields.map FieldOf.name := by
  have hinj : Function.Injective fun version =>
      makeVersionedFieldName base version (variantSemanticType t) :=
    fun v w h => (makeVersionedFieldName_inj h).1
  exact ⟨_, le_firstFree _ _ _, rfl,
    firstFree_spec hinj (fun version => contains_iff_mem) (nextVersion fields base)⟩

theorem parse_nextVariantName {base : Bytes} {p : VersionedFieldName}
    (h : parseVersionedFieldName (nextVariantName fields base t) = some p) :
    p.base = base ∧ nextVersion fields base ≤ p.version ∧
      nextVariantName fields base t
        = makeVersionedFieldName p.base p.version (variantSemanticType t) := by
  obtain ⟨version, hle, heq, -⟩ := nextVariantName_spec fields base t
  rw [heq, parseVersionedFieldName_make_eq base version (isPrintedSuffix_semantic t),
    Option.ite_none_right_eq_some] at h
  obtain ⟨-, hp⟩ := h
  cases hp
  exact ⟨rfl, hle, heq⟩

theorem family_nextVariantName (fields : List LogicalField) (base : Bytes) (t : LogicalType) :
    variantFamilyBase (nextVariantName fields base t) = base ∨
      variantFamilyBase (nextVariantName fields base t) = nextVariantName fields base t := by
  rcases hp : parseVersionedFieldName (nextVariantName fields base t) with - | p
  · exact .inr (variantFamilyBase_of_none hp)
  · refine .inl ?_
    rw [variantFamilyBase_of_parse hp]
    exact (parse_nextVariantName hp).1

/-! ### The family invariant of one level -/

variable {out : List LogicalField} {c : LogicalType}

/-- The scalars a numeric column can start from or become. -/
def NumericLike (t : LogicalType) : Prop :=
  t = .scalar .null ∨ t = .scalar .int64 ∨ t = .scalar .float64

/-- **The invariant of a level during a merge**: typed fields, well-formed name
families, and at most one null or numeric scalar per family. -/
structure FamilyLevel (fields : List LogicalField) : Prop where
  typed : ∀ f ∈ fields, f.type ≠ none
  names : NameFamilies (fields.map FieldOf.name)
  numeric : ∀ f ∈ fields, ∀ g ∈ fields, familyBaseName f = familyBaseName g →
    ∀ t u, f.type = some t → g.type = some u → NumericLike t → NumericLike u → f.name = g.name

theorem NameFamilies.family_mem (h : NameFamilies names) {n : Bytes}
    (hn : n ∈ names) : variantFamilyBase n ∈ names := by
  rcases hp : parseVersionedFieldName n with - | p
  · rwa [variantFamilyBase_of_none hp]
  · rw [variantFamilyBase_of_parse hp]
    exact (h.rooted n hn p hp).1

theorem InferredLevel.familyLevel (h : InferredLevel fields) : FamilyLevel fields where
  typed := h.typed
  names := by
    refine nameFamilies_of_unversioned h.nodup ?_
    intro n hn
    obtain ⟨f, hf, rfl⟩ := mem_map.mp hn
    exact h.unversioned f hf
  numeric := by
    intro f hf g hg hfam _ _ _ _ _ _
    rwa [familyBaseName, familyBaseName, variantFamilyBase_of_none (h.unversioned f hf),
      variantFamilyBase_of_none (h.unversioned g hg)] at hfam

/-- A field may be added if its family has no second numeric variant then. -/
theorem FamilyLevel.concat (h : FamilyLevel out)
    (htyped : f.type ≠ none) (hnames : NameFamilies (out.map FieldOf.name ++ [f.name]))
    (hnum : ∀ g ∈ out, familyBaseName g = familyBaseName f → ∀ t u, g.type = some t →
      f.type = some u → NumericLike t → NumericLike u → False) :
    FamilyLevel (out ++ [f]) where
  typed := by
    intro g hg
    rcases mem_append.mp hg with hg | hg
    · exact h.typed g hg
    · rw [mem_singleton] at hg
      rwa [hg]
  names := by rwa [map_append, map_singleton]
  numeric := by
    intro g hg g' hg' hfam t u ht hu hnt hnu
    simp only [mem_append, mem_singleton] at hg hg'
    rcases hg with hg | rfl
    · rcases hg' with hg' | rfl
      · exact h.numeric g hg g' hg' hfam t u ht hu hnt hnu
      · exact (hnum g hg hfam t u ht hu hnt hnu).elim
    · rcases hg' with hg' | rfl
      · exact (hnum g' hg' hfam.symm u t hu ht hnu hnt).elim
      · rfl

theorem map_name_set {i : Nat} {g g' : LogicalField} (hg : out[i]? = some g)
    (hname : g'.name = g.name) : (out.set i g').map FieldOf.name = out.map FieldOf.name := by
  obtain ⟨hi, rfl⟩ := List.getElem?_eq_some_iff.mp hg
  rw [map_set, hname]
  refine ext_getElem (by simp) fun j hj hj' => ?_
  rw [getElem_set]
  split
  · rename_i hij
    subst hij
    simp
  · rfl

/-- A variant may take another type that is numeric only if its own was. -/
theorem FamilyLevel.set {i : Nat} {g : LogicalField} (h : FamilyLevel out) (hg : out[i]? = some g)
    (hc : g.type = some c) (hnum : NumericLike t → NumericLike c) :
    FamilyLevel (out.set i { g with type := some t }) where
  typed := by
    intro f hf
    rcases mem_or_eq_of_mem_set hf with hf | rfl
    · exact h.typed f hf
    · simp
  names := by
    have hnames : (out.set i { g with type := some t }).map FieldOf.name
        = out.map FieldOf.name := map_name_set hg rfl
    rw [hnames]
    exact h.names
  numeric := by
    have hmem : g ∈ out := mem_of_getElem? hg
    intro f hf f' hf' hfam u u' hu hu' hnu hnu'
    rcases mem_or_eq_of_mem_set hf with hf | rfl
    · rcases mem_or_eq_of_mem_set hf' with hf' | rfl
      · exact h.numeric f hf f' hf' hfam u u' hu hu' hnu hnu'
      · cases hu'
        exact h.numeric f hf g hmem hfam u c hu hc hnu (hnum hnu')
    · rcases mem_or_eq_of_mem_set hf' with hf' | rfl
      · cases hu
        exact h.numeric g hmem f' hf' hfam c u' hc hu' (hnum hnu) hnu'
      · rfl

/-! ### Steps keep the invariant -/

variable {key path : Bytes}

/-- A merge makes no type numeric that was not so before. -/
theorem numericLike_of_merge {r : MergedType} (h : mergeTypes key c t path = some r) :
    NumericLike r.1 → NumericLike c := by
  revert h
  refine mergeTypes_rule (R := fun c _ _ r => NumericLike r.1 → NumericLike c)
    ⟨?scalar, ?wrap, ?struct, ?enter, ?listNone, ?listSome⟩ t c path r
  case scalar =>
    intro b k m _ hm hnum
    rcases mergeScalarKinds_cases hm with rfl | ⟨rfl, -, -⟩ | ⟨rfl, -, -⟩
    · exact hnum
    · exact .inr (.inl rfl)
    · exact .inl rfl
  case wrap =>
    intro bs k _ r _ _ hnum
    simp [NumericLike] at hnum
  case struct =>
    intro bs fs _ _ hnum
    simp [NumericLike] at hnum
  case enter =>
    intro e t _ r _ _ hnum
    simp [NumericLike] at hnum
  case listNone =>
    intro e _ hnum
    simp [NumericLike] at hnum
  case listSome =>
    intro e t _ r _ hnum
    simp [NumericLike] at hnum

theorem merge_numericLike (hc : NumericLike c) (ht : NumericLike t) :
    mergeTypes key c t path ≠ none := by
  rcases hc with rfl | rfl | rfl <;> rcases ht with rfl | rfl | rfl <;>
    simp [mergeScalarInto, mergeScalarKinds]

/-- **One step keeps the family invariant**, if the incoming field is typed and
has no versioned name. -/
theorem LevelStep.familyLevel {r : MergedFields} (h : LevelStep key path f out r)
    (hout : FamilyLevel out) (htyped : f.type ≠ none)
    (hname : parseVersionedFieldName f.name = none) : FamilyLevel r.1 := by
  have hself : familyBaseName f = f.name := variantFamilyBase_of_none hname
  -- a family nobody is in: its base is not among the names
  have hlone : ∀ g ∈ out, familyBaseName g ∈ out.map FieldOf.name :=
    fun g hg => hout.names.family_mem (mem_map_of_mem hg)
  cases h with
  | unchanged => exact hout
  | evolved ht hg hfam hc hr => exact hout.set hg hc (numericLike_of_merge hr)
  | filled hg hname hc => exact absurd hc (hout.typed _ (mem_of_getElem? hg))
  | added hfresh =>
    refine hout.concat htyped (hout.names.concat hfresh ?_) ?_
    · intro p hp
      rw [hname] at hp
      cases hp
    · intro g hg hfam
      exact absurd (hself ▸ hfam ▸ hlone g hg) hfresh
  | @variant t previous ht hpresent hmember hfail =>
    obtain ⟨-, -, -, hfresh⟩ := nextVariantName_spec out (familyBaseName f) t
    refine hout.concat (by simp [ht]) (hout.names.concat hfresh ?_) ?_
    · intro p hp
      obtain ⟨hbase, hle, heq⟩ := parse_nextVariantName hp
      refine ⟨⟨t, heq⟩, ?_, ?_⟩
      · -- an unversioned field gets a version only beside its own column
        rcases hpresent with hmem | hversioned
        · rw [hbase, hself]
          exact ⟨hmem, hname⟩
        · exact absurd (by rw [versionedFieldBase, hname]) hversioned
      · intro m hm hbv
        obtain ⟨g, hg, rfl⟩ := mem_map.mp hm
        obtain ⟨q, hq, hqv⟩ := Option.map_eq_some_iff.mp hbv
        obtain ⟨hqb, hqn⟩ := Prod.mk.inj hqv
        have hlt := version_lt_nextVersion hg hq
        rw [hqb, hqn, hbase] at hlt
        exact absurd hlt (not_lt.mpr hle)
    · intro g hg hfam c u hc hu hnc hnu
      rcases family_nextVariantName out (familyBaseName f) t with hbase | hlonely
      · rw [show u = t from Option.some.inj (hu.symm.trans ht)] at hnu
        exact merge_numericLike hnc hnu (hfail g hg (hfam.trans hbase) c hc)
      · have hmem := hlone g hg
        rw [hfam] at hmem
        exact hfresh (hlonely ▸ hmem)

/-! ### Merged types keep the invariant -/

/-- The family invariant on every node: struct levels satisfy it and lists have
an element type. -/
def FamilyNode : LogicalType → Prop
  | .scalar _ => True
  | .struct fields => FamilyLevel fields
  | .list value => value ≠ none

theorem InferredNode.familyNode (h : InferredNode t) : FamilyNode t := by
  rcases t with k | fields | value
  · trivial
  · exact InferredLevel.familyLevel h
  · exact h

/-- **The family invariant is kept by merges of inferred types.** -/
theorem familyInvariant (hkey : parseVersionedFieldName (wrapperKey key) = none) :
    MergeInvariant key FamilyNode InferredNode
      fun f => f.type ≠ none ∧ parseVersionedFieldName f.name = none where
  scalar := fun _ => trivial
  list := fun _ => Option.some_ne_none _
  initial := fun _ => InferredNode.familyNode
  fits := fun _ hfs f hf => ⟨InferredLevel.typed hfs f hf, InferredLevel.unversioned hfs f hf⟩
  wrapper := fun _ => ⟨Option.some_ne_none _, hkey⟩
  level := fun _ _ _ _ hstep hfits hout => hstep.familyLevel hout hfits.1 hfits.2

end SchemaSanitizer
