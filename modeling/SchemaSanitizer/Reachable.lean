/-
SchemaSanitizer/Reachable.lean

Registry states reachable by additive merges of inferred schemas, and their
canonical form.

A level that satisfies the family invariant loses nothing to the normalizer: it
only gets its version suffixes back (`normalizeIntegerFloatFields_families`).  The
result is a canonical level, where every suffix names its type; sorting keeps
that.  So every state of a run is canonical (`reachable_canonical`), and the
normalizer leaves it alone (`Canonical.normalize_eq`).
-/
import SchemaSanitizer.Canonical

namespace SchemaSanitizer

open List

/-! ### Canonical levels -/

variable {t : LogicalType} {fields : List LogicalField} {f g : LogicalField}

/-- **A canonical level**: the family invariant, and every version suffix names
the type of its column. -/
structure CanonicalLevel (fields : List LogicalField) : Prop extends FamilyLevel fields where
  named : ∀ f ∈ fields, canonicalizeVersionedNameForType f = f

/-- Every struct level is canonical and every list has an element type. -/
def CanonicalNode : LogicalType → Prop
  | .scalar _ => True
  | .struct fields => CanonicalLevel fields
  | .list value => value ≠ none

/-- **A canonical type.** -/
def LogicalType.Canonical (t : LogicalType) : Prop := t.Forall CanonicalNode

/-- **A canonical schema.** -/
def LogicalSchema.Canonical (schema : LogicalSchema) : Prop :=
  (LogicalType.struct schema.fields).Canonical

theorem CanonicalNode.familyNode (h : CanonicalNode t) : FamilyNode t := by
  rcases t with k | fields | value
  · trivial
  · exact CanonicalLevel.toFamilyLevel h
  · exact h

theorem InferredLevel.canonicalLevel (h : InferredLevel fields) : CanonicalLevel fields where
  toFamilyLevel := h.familyLevel
  named := fun f hf => canonicalize_of_unversioned (h.unversioned f hf)

theorem InferredNode.canonicalNode (h : InferredNode t) : CanonicalNode t := by
  rcases t with k | fields | value
  · trivial
  · exact InferredLevel.canonicalLevel h
  · exact h

theorem FamilyLevel.eq_of_name (h : FamilyLevel fields) (hf : f ∈ fields) (hg : g ∈ fields)
    (hname : f.name = g.name) : f = g :=
  inj_on_of_nodup_map h.names.nodup hf hg hname

theorem FamilyLevel.pairwise_apart (h : FamilyLevel fields) : fields.Pairwise NumericApart := by
  have hne : fields.Pairwise fun f g => f.name ≠ g.name := by
    rw [← pairwise_map (R := (· ≠ ·))]
    exact h.names.nodup
  refine hne.imp_of_mem ?_
  intro f g hf hg hfg hfam hnf hng
  -- two numeric columns of one family would have one name
  have hlike : ∀ {f : LogicalField}, isScalarNumericType f = true →
      ∃ t, f.type = some t ∧ NumericLike t := by
    intro f hf
    rcases isScalarNumericType_iff.mp hf with ht | ht
    · exact ⟨_, ht, .inr (.inl rfl)⟩
    · exact ⟨_, ht, .inr (.inr rfl)⟩
  obtain ⟨t, ht, hnt⟩ := hlike hnf
  obtain ⟨u, hu, hnu⟩ := hlike hng
  exact absurd (h.numeric f hf g hg hfam t u ht hu hnt hnu) hfg

/-! ### Renaming a family level -/

variable {p : VersionedFieldName}

theorem FamilyLevel.canonicalize_inj (h : FamilyLevel fields)
    {g : LogicalField} (hf : f ∈ fields) (hg : g ∈ fields)
    (hname : (canonicalizeVersionedNameForType f).name
      = (canonicalizeVersionedNameForType g).name) : f = g := by
  have hbv : baseAndVersion f.name = baseAndVersion g.name := by
    rw [← baseAndVersion_canonicalize f, hname, baseAndVersion_canonicalize]
  apply h.eq_of_name hf hg
  rcases e : baseAndVersion f.name with - | x
  · -- neither name is versioned: neither is changed
    rw [e] at hbv
    have hpf : parseVersionedFieldName f.name = none := Option.map_eq_none_iff.mp e
    have hpg : parseVersionedFieldName g.name = none := Option.map_eq_none_iff.mp hbv.symm
    rwa [canonicalize_of_unversioned hpf, canonicalize_of_unversioned hpg] at hname
  · exact h.names.versions _ (mem_map_of_mem hf) _ (mem_map_of_mem hg) x e (hbv ▸ e)

theorem canonicalize_printed {p : VersionedFieldName}
    (hprinted : ∀ q, parseVersionedFieldName f.name = some q →
      ∃ t, f.name = makeVersionedFieldName q.base q.version (variantSemanticType t))
    (hp : parseVersionedFieldName (canonicalizeVersionedNameForType f).name = some p) :
    ∃ t, (canonicalizeVersionedNameForType f).name
      = makeVersionedFieldName p.base p.version (variantSemanticType t) := by
  rcases hq : parseVersionedFieldName f.name with - | q
  · rw [canonicalize_of_unversioned hq, hq] at hp
    cases hp
  rcases ht : f.type with - | t
  · rw [canonicalize_of_untyped ht] at hp ⊢
    exact hprinted p hp
  · have hparse := parse_canonicalize hq ht
    rw [hparse] at hp
    cases hp
    unfold canonicalizeVersionedNameForType
    rw [hq, ht]
    dsimp only
    split
    · exact hprinted q hq
    · exact ⟨t, rfl⟩

/-- **Renaming turns a family level into a canonical one.** -/
theorem FamilyLevel.canonicalize (h : FamilyLevel fields) :
    CanonicalLevel (fields.map canonicalizeVersionedNameForType) where
  typed := by
    intro g hg
    obtain ⟨f, hf, rfl⟩ := mem_map.mp hg
    rw [canonicalize_type]
    exact h.typed f hf
  names := by
    rw [map_map]
    refine ⟨?_, ?_, ?_, ?_⟩
    · refine List.Nodup.map_on (fun f hf g hg => h.canonicalize_inj hf hg) ?_
      exact h.names.nodup.of_map
    · intro n hn p hp
      obtain ⟨f, hf, rfl⟩ := mem_map.mp hn
      exact canonicalize_printed (h.names.printed _ (mem_map_of_mem hf)) hp
    · intro n hn p hp
      obtain ⟨f, hf, rfl⟩ := mem_map.mp hn
      -- the base of a version is an unversioned sibling, which renaming keeps
      have hbv : baseAndVersion f.name = some (p.base, p.version) := by
        rw [← baseAndVersion_canonicalize, baseAndVersion]
        exact congrArg (Option.map _) hp
      obtain ⟨q, hq, hqp⟩ := Option.map_eq_some_iff.mp hbv
      have hbase : q.base = p.base := congrArg Prod.fst hqp
      obtain ⟨hmem, hun⟩ := h.names.rooted _ (mem_map_of_mem hf) q hq
      obtain ⟨g, hg, hgname⟩ := mem_map.mp hmem
      rw [← hbase]
      refine ⟨mem_map.mpr ⟨g, hg, ?_⟩, hun⟩
      rw [Function.comp_apply, canonicalize_of_unversioned (by rw [hgname]; exact hun), hgname]
    · intro n hn m hm x hnx hmx
      obtain ⟨f, hf, rfl⟩ := mem_map.mp hn
      obtain ⟨g, hg, rfl⟩ := mem_map.mp hm
      rw [Function.comp_apply, baseAndVersion_canonicalize] at hnx hmx
      have hfg : f = g := h.eq_of_name hf hg
        (h.names.versions _ (mem_map_of_mem hf) _ (mem_map_of_mem hg) x hnx hmx)
      rw [hfg]
  numeric := by
    intro f' hf' g' hg' hfam t u ht hu hnt hnu
    obtain ⟨f, hf, rfl⟩ := mem_map.mp hf'
    obtain ⟨g, hg, rfl⟩ := mem_map.mp hg'
    rw [familyBaseName_canonicalize, familyBaseName_canonicalize] at hfam
    rw [canonicalize_type] at ht hu
    have hfg : f = g := h.eq_of_name hf hg (h.numeric f hf g hg hfam t u ht hu hnt hnu)
    rw [hfg]
  named := by
    intro g hg
    obtain ⟨f, -, rfl⟩ := mem_map.mp hg
    exact canonicalize_idem f

theorem FamilyLevel.normalizeLevel_eq (h : FamilyLevel fields) :
    normalizeLevel fields = fields.map canonicalizeVersionedNameForType :=
  normalizeLevel_eq_map h.pairwise_apart (noEcho_of_nodup h.canonicalize.names.nodup)

/-! ### Changing the types of a level -/

variable {g : LogicalType → LogicalType} {fields' : List LogicalField}

theorem FamilyLevel.mapType (h : FamilyLevel fields) (hg : ∀ t, NumericLike (g t) → NumericLike t) :
    FamilyLevel (fields.map (FieldOf.mapType g)) where
  typed := by
    intro f' hf'
    obtain ⟨f, hf, rfl⟩ := mem_map.mp hf'
    rw [mapType_type, Ne, Option.map_eq_none_iff]
    exact h.typed f hf
  names := by
    rw [map_map]
    exact h.names
  numeric := by
    intro f' hf' f'' hf'' hfam t u ht hu hnt hnu
    obtain ⟨f₁, h₁, rfl⟩ := mem_map.mp hf'
    obtain ⟨f₂, h₂, rfl⟩ := mem_map.mp hf''
    obtain ⟨t₁, ht₁, rfl⟩ := Option.map_eq_some_iff.mp ht
    obtain ⟨t₂, ht₂, rfl⟩ := Option.map_eq_some_iff.mp hu
    exact h.numeric f₁ h₁ f₂ h₂ hfam t₁ t₂ ht₁ ht₂ (hg _ hnt) (hg _ hnu)

theorem mapType_canonicalize (hsem : ∀ t, variantSemanticType (g t) = variantSemanticType t)
    (f : LogicalField) :
    (canonicalizeVersionedNameForType f).mapType g
      = canonicalizeVersionedNameForType (f.mapType g) := by
  rcases hp : parseVersionedFieldName f.name with - | p
  · rw [canonicalize_of_unversioned hp, canonicalize_of_unversioned (by exact hp)]
  rcases ht : f.type with - | t
  · rw [canonicalize_of_untyped ht, canonicalize_of_untyped (by simp [ht])]
  · unfold canonicalizeVersionedNameForType
    rw [mapType_name, mapType_type, hp, ht, Option.map_some]
    dsimp only
    rw [hsem]
    split
    · rfl
    · rfl

theorem canonicalize_mapType (hsem : ∀ t, variantSemanticType (g t) = variantSemanticType t)
    (h : canonicalizeVersionedNameForType f = f) :
    canonicalizeVersionedNameForType (f.mapType g) = f.mapType g := by
  rw [← mapType_canonicalize hsem, h]

theorem CanonicalLevel.mapType (h : CanonicalLevel fields)
    (hg : ∀ t, NumericLike (g t) → NumericLike t)
    (hsem : ∀ t, variantSemanticType (g t) = variantSemanticType t) :
    CanonicalLevel (fields.map (FieldOf.mapType g)) where
  toFamilyLevel := h.toFamilyLevel.mapType hg
  named := by
    intro f' hf'
    obtain ⟨f, hf, rfl⟩ := mem_map.mp hf'
    exact canonicalize_mapType hsem (h.named f hf)

theorem FamilyLevel.perm (h : FamilyLevel fields) (hperm : fields.Perm fields') :
    FamilyLevel fields' where
  typed := fun f hf => h.typed f (hperm.mem_iff.mpr hf)
  names := h.names.perm (hperm.map FieldOf.name)
  numeric := fun f hf g hg => h.numeric f (hperm.mem_iff.mpr hf) g (hperm.mem_iff.mpr hg)

theorem CanonicalLevel.perm (h : CanonicalLevel fields) (hperm : fields.Perm fields') :
    CanonicalLevel fields' where
  toFamilyLevel := h.toFamilyLevel.perm hperm
  named := fun f hf => h.named f (hperm.mem_iff.mpr hf)

/-! ### Normalizing and sorting whole types -/

variable {level : List LogicalField → List LogicalField} {schema : LogicalSchema}
  {order : FieldOrderPolicy}

theorem LevelMap.semantic (hg : LevelMap g level) (t : LogicalType) :
    variantSemanticType (g t) = variantSemanticType t :=
  hg.rule (P := fun _ => True) (R := fun t u => variantSemanticType u = variantSemanticType t)
    (fun _ => rfl) (fun _ => rfl) (fun h => congrArg (· ++ bytes "_array") h) (fun _ _ => rfl)
    fun _ _ => trivial

theorem LevelMap.numericLike (hg : LevelMap g level) (h : NumericLike (g t)) : NumericLike t := by
  rcases t with k | fields | v
  · rwa [hg.scalar] at h
  · rw [hg.struct] at h
    simp [NumericLike] at h
  · rw [hg.list] at h
    simp [NumericLike] at h

/-- **The normalizer only renames the fields of a family level**, once their types
are normalized. -/
theorem normalizeIntegerFloatFields_families (h : FamilyLevel fields) :
    normalizeIntegerFloatFields fields
      = (fields.map (FieldOf.mapType normalizeIntegerFloatType)).map
        canonicalizeVersionedNameForType := by
  rw [normalizeIntegerFloatFields_eq]
  exact (h.mapType fun _ => levelMap_normalize.numericLike).normalizeLevel_eq

/-- **Normalizing a type with the family invariant makes it canonical.** -/
theorem normalize_canonical : t.Forall FamilyNode → (normalizeIntegerFloatType t).Canonical := by
  refine levelMap_normalize.all (P := FamilyNode) (Q := CanonicalNode) (fun _ => trivial)
    (fun h => h)
    (fun _ => Option.some_ne_none _) fun fields hlevel => ?_
  rw [normalizeIntegerFloatFields_families hlevel]
  exact (FamilyLevel.mapType hlevel fun _ => levelMap_normalize.numericLike).canonicalize

/-- **Sorting a canonical type keeps it canonical.** -/
theorem alphabetize_canonical : t.Canonical → (alphabetize t).Canonical := by
  refine levelMap_alphabetize.all (Q := CanonicalNode) (fun _ => trivial) id
    (fun _ => Option.some_ne_none _) fun fields hlevel => ?_
  have hmapped := CanonicalLevel.mapType hlevel (fun _ => levelMap_alphabetize.numericLike)
    levelMap_alphabetize.semantic
  exact hmapped.perm (sortFields_perm hmapped.names.nodup).symm

theorem CanonicalLevel.normalLevel (h : CanonicalLevel fields) : NormalLevel fields where
  named := h.named
  apart := h.pairwise_apart
  noEcho := noEcho_of_nodup h.names.nodup

theorem CanonicalNode.normalNode (h : CanonicalNode t) : NormalNode t := by
  rcases t with k | fields | v
  · trivial
  · exact CanonicalLevel.normalLevel h
  · trivial

/-- **The normalizer leaves a canonical type alone.** -/
theorem LogicalType.Canonical.normalize_eq (h : t.Canonical) : normalizeIntegerFloatType t = t :=
  normalizeIntegerFloatType_eq_self (h.mono fun _ => CanonicalNode.normalNode)

theorem LogicalSchema.Canonical.normalize_eq (h : schema.Canonical) :
    normalizeIntegerFloatSchema schema = schema := by
  have hfields := LogicalType.Canonical.normalize_eq h
  rw [normalizeIntegerFloatType_struct] at hfields
  exact congrArg LogicalSchema.mk (LogicalType.struct.inj hfields)

theorem LogicalSchema.Inferred.canonical (h : schema.Inferred) : schema.Canonical :=
  h.mono fun _ => InferredNode.canonicalNode

theorem applyOrder_canonical (h : schema.Canonical) : (applyOrder order schema).Canonical :=
  applyOrder_rule order h (alphabetize_canonical h)

/-! ### Runs -/

variable {key : Bytes}

/-- One additive merge, with an input that is admitted in the state. -/
def RegistryStep (Admits : LogicalSchema → SchemaRegistryMergeInput → Prop)
    (previous next : LogicalSchema) : Prop :=
  ∃ clock input result, input.schemaEvolution = .additive ∧ Admits previous input ∧
    mergeSchemaRegistryWithPrevious clock input (some previous) = .ok result ∧
    next = result.schema

/-- The states that runs of admitted additive merges reach from the empty registry. -/
def ReachableBy (Admits : LogicalSchema → SchemaRegistryMergeInput → Prop)
    (schema : LogicalSchema) : Prop :=
  Relation.ReflTransGen (RegistryStep Admits) ⟨[]⟩ schema

/-- Inputs with an inferred schema and an unversioned default key. -/
def InferredInput (_ : LogicalSchema) (input : SchemaRegistryMergeInput) : Prop :=
  input.inferredSchema.Inferred ∧ parseVersionedFieldName input.defaultKeyName = none

/-- **Reachable registry schemas**: by additive merges of inferred schemas. -/
def Reachable : LogicalSchema → Prop := ReachableBy InferredInput

/-- **Invariant rule for runs**: what holds of the empty registry and is kept by
every admitted merge holds of every reachable state. -/
theorem ReachableBy.invariant {Admits : LogicalSchema → SchemaRegistryMergeInput → Prop}
    {Inv : LogicalSchema → Prop} (hempty : Inv ⟨[]⟩)
    (hstep : ∀ previous input, Inv previous → Admits previous input →
      input.defaultKeyName ≠ [] →
      Inv (additiveMerge input.defaultKeyName input.fieldOrder previous input.inferredSchema).1)
        (h : ReachableBy Admits schema) : Inv schema := by
  induction h with
  | refl => exact hempty
  | tail _ hmerge ih =>
    obtain ⟨clock, input, result, hmode, hadmits, hok, rfl⟩ := hmerge
    have hnext := hstep _ input ih hadmits (merge_ok hok).2.1
    rwa [merge_ok_additive hmode hok] at hnext

theorem wrapperKey_of_ne_nil (h : key ≠ []) : wrapperKey key = key := if_neg h

theorem mergeFields_canonical (path : Bytes) {previous inferred : List LogicalField}
    (hne : key ≠ []) (hkey : parseVersionedFieldName key = none)
    (hprevious : (LogicalType.struct previous).Canonical)
    (hinferred : (LogicalType.struct inferred).Forall InferredNode) :
    (LogicalType.struct (mergeFields key previous inferred path).1).Forall FamilyNode :=
  (familyInvariant ((wrapperKey_of_ne_nil hne).symm ▸ hkey)).mergeFields path hinferred
    (hprevious.mono fun _ => CanonicalNode.familyNode)

theorem additiveMerge_canonical {previous inferred : LogicalSchema} (hne : key ≠ [])
    (hkey : parseVersionedFieldName key = none) (hprevious : previous.Canonical)
    (hinferred : inferred.Inferred) : (additiveMerge key order previous inferred).1.Canonical := by
  unfold additiveMerge
  have hI := hinferred.canonical.normalize_eq
  split
  · dsimp only
    rw [hI, hI]
    exact applyOrder_canonical hinferred.canonical
  · dsimp only
    rw [hI, hprevious.normalize_eq]
    exact applyOrder_canonical
      (normalize_canonical (mergeFields_canonical [] hne hkey hprevious hinferred))

/-- **Every reachable registry schema is canonical.** -/
theorem reachable_canonical (h : Reachable schema) : schema.Canonical := by
  refine ReachableBy.invariant ?_ ?_ h
  · refine forall_struct.mpr ⟨?_, by simp⟩
    exact InferredLevel.canonicalLevel ⟨by simp, by simp, by simp⟩
  · intro previous input hprevious hadmits hne
    exact additiveMerge_canonical hne hadmits.2 hprevious hadmits.1

/-! ### A sample registry -/

/-- A complete additive input for a schema and a field order. -/
def sampleInput (order : FieldOrderPolicy) (fields : List LogicalField) :
    SchemaRegistryMergeInput where
  inferredSchema := ⟨fields⟩
  registryJson := bytes "\x7b\x7d"
  fieldNamePolicy := bytes "lower_snake"
  defaultKeyName := bytes "default_key"
  detectedAt := bytes "2024-01-01T00:00:00Z"
  schemaEvolution := .additive
  fieldOrder := order

/-- A field of a sample schema. -/
def sampleField (name : String) (t : LogicalType) : LogicalField := ⟨bytes name, some t, true⟩

/-- A struct of integer columns. -/
def sampleStruct (names : List String) : LogicalType :=
  .struct (names.map fun name => sampleField name (.scalar .int64))

theorem reachable_sample : Reachable ⟨[sampleField "a" (.scalar .int64)]⟩ := by
  refine Relation.ReflTransGen.single ⟨.ok [],
    sampleInput .schemaContractFirst [sampleField "a" (.scalar .int64)], _, rfl, ?_, rfl, rfl⟩
  exact ⟨by decide, by decide⟩

end SchemaSanitizer
