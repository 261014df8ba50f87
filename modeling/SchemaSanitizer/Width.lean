/-
SchemaSanitizer/Width.lean

No additive merge loses or narrows a column.

`Widens t u` says that `u` is at least as wide as `t`: null is below every scalar,
int64 below float64, lists compare by element, and a struct is below another if
its fields can be mapped injectively to fields of the same family base and
version number whose types are at least as wide.  Everything else must be equal.

Each stage of a merge widens: a step on a level leaves every old field where it
is (`LevelStep.widens`), the normalizer renames the fields of a merged level
without touching their bases and versions, and sorting permutes them.  The
relation is transitive, so the whole merge widens (`merge_widens`).
-/
import SchemaSanitizer.Reachable

namespace SchemaSanitizer

open List

variable {fs : List LogicalField}

/-- The version number a field name carries, if it is versioned. -/
def versionNumber (name : Bytes) : Option Nat :=
  (parseVersionedFieldName name).map VersionedFieldName.version

/-- `g` can stand for `f` in a wider level: same family base, same version
number, and typed if `f` is. -/
structure SameColumn (f g : LogicalField) : Prop where
  family : familyBaseName f = familyBaseName g
  version : versionNumber f.name = versionNumber g.name
  typed : f.type ≠ none → g.type ≠ none

/-- **Width order on types.**  The struct case maps the field at position `i` to
the one at position `place i`. -/
inductive Widens : LogicalType → LogicalType → Prop
  | scalar (k : ScalarKind) : Widens (.scalar k) (.scalar k)
  | null (k : ScalarKind) : Widens (.scalar .null) (.scalar k)
  | intFloat : Widens (.scalar .int64) (.scalar .float64)
  | listNone : Widens (.list none) (.list none)
  | listSome {t u : LogicalType} (h : Widens t u) : Widens (.list (some t)) (.list (some u))
  | struct {fs gs : List LogicalField} (place : Nat → Nat)
      (hinj : ∀ i j, i < fs.length → j < fs.length → place i = place j → i = j)
      (hcolumn : ∀ (i : Nat) (f : LogicalField), fs[i]? = some f →
        ∃ g, gs[place i]? = some g ∧ SameColumn f g)
      (htype : ∀ (i : Nat) (f g : LogicalField) (t u : LogicalType), fs[i]? = some f →
        gs[place i]? = some g → f.type = some t → g.type = some u → Widens t u) :
      Widens (.struct fs) (.struct gs)

theorem SameColumn.refl (f : LogicalField) : SameColumn f f := ⟨rfl, rfl, id⟩

theorem SameColumn.trans {f g h : LogicalField} (hfg : SameColumn f g) (hgh : SameColumn g h) :
    SameColumn f h :=
  ⟨hfg.family.trans hgh.family, hfg.version.trans hgh.version, fun hf => hgh.typed (hfg.typed hf)⟩

theorem widens_in_place {gs : List LogicalField}
    (h : ∀ (i : Nat) (f : LogicalField), fs[i]? = some f → ∃ g, gs[i]? = some g ∧ SameColumn f g ∧
      ∀ t u, f.type = some t → g.type = some u → Widens t u) :
    Widens (.struct fs) (.struct gs) := by
  refine .struct id (fun _ _ _ _ hij => hij) ?_ ?_
  · intro i f hf
    obtain ⟨g, hg, hcolumn, -⟩ := h i f hf
    exact ⟨g, hg, hcolumn⟩
  · intro i f g t u hf hg ht hu
    obtain ⟨g', hg', -, hwide⟩ := h i f hf
    rw [id_eq, hg'] at hg
    cases hg
    exact hwide t u ht hu

theorem Widens.refl (t : LogicalType) : Widens t t := by
  induction t with
  | scalar k => exact .scalar k
  | struct fs ih =>
    refine widens_in_place fun i f hf => ⟨f, hf, .refl f, ?_⟩
    intro t u ht hu
    rw [ht] at hu
    cases hu
    exact ih f (mem_of_getElem? hf) t ht
  | listNone => exact .listNone
  | listSome t ih => exact .listSome ih

/-- Widening is transitive, level by level. -/
theorem Widens.trans {t u v : LogicalType} (htu : Widens t u) (huv : Widens u v) : Widens t v := by
  induction htu generalizing v with
  | scalar k => exact huv
  | null k =>
    rcases huv with k | k | -
    · exact .null k
    · exact .null k
    · exact .null _
  | intFloat =>
    cases huv
    exact .intFloat
  | listNone => exact huv
  | listSome h ih =>
    cases huv with
    | listSome h' => exact .listSome (ih h')
  | @struct fs gs place hinj hcolumn htype ih =>
    cases huv with
    | @struct _ hs place' hinj' hcolumn' htype' =>
      -- the images of fields of `fs` are positions of `gs`
      have hlt : ∀ i, i < fs.length → place i < gs.length := by
        intro i hi
        obtain ⟨g, hg, -⟩ := hcolumn i _ (getElem?_eq_getElem hi)
        exact (List.getElem?_eq_some_iff.mp hg).1
      refine .struct (place' ∘ place) ?_ ?_ ?_
      · intro i j hi hj hij
        exact hinj i j hi hj (hinj' _ _ (hlt i hi) (hlt j hj) hij)
      · intro i f hf
        obtain ⟨g, hg, hfg⟩ := hcolumn i f hf
        obtain ⟨h, hh, hgh⟩ := hcolumn' _ g hg
        exact ⟨h, hh, hfg.trans hgh⟩
      · intro i f h t v hf hh ht hv
        obtain ⟨g, hg, hfg⟩ := hcolumn i f hf
        obtain ⟨u, hu⟩ := Option.ne_none_iff_exists'.mp (hfg.typed (by simp [ht]))
        exact ih i f g t u hf hg ht hu (htype' _ g h u v hg hh hu hv)

/-! ### Merging widens -/

variable {key : Bytes}

theorem widens_append (fs gs : List LogicalField) : Widens (.struct fs) (.struct (fs ++ gs)) := by
  refine widens_in_place fun i f hf => ⟨f, ?_, .refl f, ?_⟩
  · rw [getElem?_append_left (List.getElem?_eq_some_iff.mp hf).1]
    exact hf
  · intro t u ht hu
    rw [ht] at hu
    cases hu
    exact .refl t

/-- Widening one field widens the level. -/
theorem widens_set {out : List LogicalField} {i : Nat} {g : LogicalField} {v : Option LogicalType}
    (hg : out[i]? = some g) (htyped : g.type ≠ none → v ≠ none)
    (hwide : ∀ t u, g.type = some t → v = some u → Widens t u) :
    Widens (.struct out) (.struct (out.set i { g with type := v })) := by
  refine widens_in_place fun j f hf => ?_
  by_cases hij : i = j
  · subst hij
    rw [hg] at hf
    cases hf
    refine ⟨_, getElem?_set_self (List.getElem?_eq_some_iff.mp hg).1, ?_, hwide⟩
    exact ⟨rfl, rfl, htyped⟩
  · refine ⟨f, by rw [getElem?_set_ne hij]; exact hf, .refl f, ?_⟩
    intro t u ht hu
    rw [ht] at hu
    cases hu
    exact .refl t

/-- **A step widens its level**, if the merges of the nested types widen. -/
theorem LevelStep.widens {path : Bytes} {f : LogicalField} {out : List LogicalField}
    {r : MergedFields} (h : LevelStep key path f out r)
    (ih : ∀ t, f.type = some t → ∀ g ∈ out, ∀ c, g.type = some c →
      ∀ q, mergeTypes key c t path = some q → Widens c q.1) :
    Widens (.struct out) (.struct r.1) := by
  cases h with
  | unchanged => exact .refl _
  | @evolved i g c t q ht hg hfam hc hr =>
    refine widens_set hg (by simp) ?_
    intro t' u ht' hu
    rw [hc] at ht'
    cases ht'
    cases hu
    exact ih t ht g (mem_of_getElem? hg) c hc q hr
  | filled hg hname hc =>
    refine widens_set hg (fun hne => absurd hc hne) ?_
    intro t u ht
    rw [hc] at ht
    cases ht
  | added | variant => exact widens_append _ _

theorem mergeFields_widens (path : Bytes)
    (ih : ∀ f ∈ fs, ∀ t, f.type = some t → ∀ c p q, mergeTypes key c t p = some q → Widens c q.1)
    (out : List LogicalField) : Widens (.struct out) (.struct (mergeFields key out fs path).1) := by
  refine mergeFields_run (S := fun out r => Widens (.struct out) (.struct r.1))
    (fun _ => .refl _) ?_ out
  intro f hf out r s hstep hrest
  refine (hstep.widens ?_).trans hrest
  intro t ht g _ c _ q hq
  exact ih f hf t ht c _ q hq

/-- **A successful merge widens the base type.** -/
theorem mergeTypes_widens (t : LogicalType) :
    ∀ base path r, mergeTypes key base t path = some r → Widens base r.1 := by
  refine mergeTypes_rule (R := fun base _ _ r => Widens base r.1)
    ⟨?scalar, ?wrap, ?struct, ?enter, ?listNone, ?listSome⟩ t
  case scalar =>
    intro b k m _ hm
    rcases mergeScalarKinds_cases hm with rfl | ⟨rfl, -, rfl⟩ | ⟨rfl, -, -⟩
    · exact .scalar m
    · exact .intFloat
    · exact .null m
  case wrap =>
    intro bs k path r hwrap ih
    refine (wrapScalar_step hwrap).widens ?_
    rintro t ⟨rfl⟩ g hg c hc q hq
    exact ih g hg c hc _ q hq
  case struct =>
    intro bs fs path ih
    exact mergeFields_widens path ih bs
  case enter =>
    intro e t _ r _ ih
    exact .listSome ih
  case listNone =>
    intro e _
    exact .refl _
  case listSome =>
    intro e t _ r ih
    exact .listSome ih

/-! ### Normalizing and sorting widen -/

theorem versionNumber_eq (name : Bytes) :
    versionNumber name = (baseAndVersion name).map Prod.snd := by
  rw [versionNumber, baseAndVersion, Option.map_map]
  rfl

theorem sameColumn_canonicalize (f : LogicalField) :
    SameColumn f (canonicalizeVersionedNameForType f) where
  family := (familyBaseName_canonicalize f).symm
  version := by rw [versionNumber_eq, versionNumber_eq, baseAndVersion_canonicalize]
  typed := by rw [canonicalize_type]; exact id

theorem sameColumn_mapType (g : LogicalType → LogicalType) (f : LogicalField) :
    SameColumn f (f.mapType g) :=
  ⟨rfl, rfl, by rw [mapType_type, Ne, Ne, Option.map_eq_none_iff]; exact id⟩

theorem widens_map {r : LogicalField → LogicalField} {g : LogicalType → LogicalType}
    (hcolumn : ∀ f, SameColumn f (r f)) (htype : ∀ f, (r f).type = f.type.map g)
    (h : ∀ f ∈ fs, ∀ t, f.type = some t → Widens t (g t)) :
    Widens (.struct fs) (.struct (fs.map r)) := by
  refine widens_in_place fun i f hf => ⟨r f, by rw [getElem?_map, hf]; rfl, hcolumn f, ?_⟩
  intro t u ht hu
  rw [htype, ht] at hu
  cases hu
  exact h f (mem_of_getElem? hf) t ht

theorem widens_normalize {t : LogicalType} (h : t.Forall FamilyNode) :
    Widens t (normalizeIntegerFloatType t) := by
  refine levelMap_normalize.rule .scalar (fun _ => .listNone) .listSome (fun hlevel ih => ?_) h
  rw [normalizeIntegerFloatFields_families hlevel, map_map]
  exact widens_map (fun f => (sameColumn_mapType _ f).trans (sameColumn_canonicalize _))
    (fun f => canonicalize_type _) ih

theorem widens_perm {gs : List LogicalField} (hnodup : fs.Nodup) (hperm : gs.Perm fs) :
    Widens (.struct fs) (.struct gs) := by
  have hfind : ∀ (i : Nat) (f : LogicalField), fs[i]? = some f →
      gs[gs.idxOf f]? = some f := by
    intro i f hf
    have hmem : f ∈ gs := hperm.mem_iff.mpr (mem_of_getElem? hf)
    rw [getElem?_eq_some_iff]
    exact ⟨idxOf_lt_length_of_mem hmem, getElem_idxOf _⟩
  have hplace : ∀ (i : Nat) (f : LogicalField), fs[i]? = some f →
      gs[((fs[i]?).map fun f => gs.idxOf f).getD 0]? = some f := by
    intro i f hf
    rw [hf]
    exact hfind i f hf
  refine .struct (fun i => ((fs[i]?).map fun f => gs.idxOf f).getD 0) ?_ ?_ ?_
  · intro i j hi hj hij
    have h₁ := hplace i _ (getElem?_eq_getElem hi)
    have h₂ := hplace j _ (getElem?_eq_getElem hj)
    rw [hij, h₂] at h₁
    exact (List.Nodup.getElem_inj_iff hnodup).mp (Option.some.inj h₁).symm
  · intro i f hf
    exact ⟨f, hplace i f hf, .refl f⟩
  · intro i f g t u hf hg ht hu
    rw [hplace i f hf] at hg
    cases hg
    rw [ht] at hu
    cases hu
    exact .refl t

theorem widens_alphabetize {t : LogicalType} (h : t.Canonical) : Widens t (alphabetize t) := by
  refine levelMap_alphabetize.rule .scalar (fun _ => .listNone) .listSome
    (fun {fs} hlevel ih => ?_) h
  have hlevel : CanonicalLevel fs := hlevel
  have hnames : ((fs.map (FieldOf.mapType alphabetize)).map FieldOf.name).Nodup := by
    rw [map_map]
    exact hlevel.names.nodup
  refine Widens.trans ?_ (widens_perm hnames.of_map (sortFields_perm hnames))
  exact widens_map (sameColumn_mapType _) (fun _ => rfl) ih

theorem widens_applyOrder (order : FieldOrderPolicy) {schema : LogicalSchema}
    (h : schema.Canonical) :
    Widens (.struct schema.fields) (.struct (applyOrder order schema).fields) :=
  applyOrder_rule order (.refl _) (widens_alphabetize h)

/-- **No column is lost or narrowed.**  For every reachable registry and every
inferred schema, the schema an additive merge returns is at least as wide as the
previous one: at every struct level the previous fields map injectively to fields
of the same family base and version number and of at least as wide a type. -/
theorem merge_widens {clock : Except Bytes Bytes} {input : SchemaRegistryMergeInput}
    {previous : LogicalSchema} {result : SchemaRegistryMergeResult}
    (hreach : Reachable previous) (hmode : input.schemaEvolution = .additive)
    (hinput : InferredInput previous input)
    (hok : mergeSchemaRegistryWithPrevious clock input (some previous) = .ok result) :
    Widens (.struct previous.fields) (.struct result.schema.fields) := by
  have hprevious := reachable_canonical hreach
  have hmerge := merge_ok_additive hmode hok
  obtain ⟨-, hne, -, -⟩ := merge_ok hok
  rw [additiveMerge] at hmerge
  split at hmerge
  · -- an empty registry has no column to lose
    rename_i hempty
    rw [hempty]
    exact widens_append [] _
  · dsimp only at hmerge
    rw [hprevious.normalize_eq, hinput.1.canonical.normalize_eq] at hmerge
    obtain ⟨hschema, -⟩ := Prod.mk.inj hmerge
    rw [← hschema]
    have hmerged := mergeFields_canonical [] hne hinput.2 hprevious hinput.1
    -- merge, normalize, order: each stage widens
    have hmerging : Widens (.struct previous.fields) (.struct (mergeFields input.defaultKeyName
        previous.fields input.inferredSchema.fields []).1) :=
      mergeFields_widens [] (fun _ _ t _ => mergeTypes_widens t) previous.fields
    have hnormalizing := widens_normalize hmerged
    have hordering := widens_applyOrder input.fieldOrder (normalize_canonical hmerged)
    exact (hmerging.trans hnormalizing).trans hordering

/-- The law on a merge that promotes: floats arrive for the integer column. -/
theorem merge_widens_sample :
    ∃ result, mergeSchemaRegistryWithPrevious (.ok [])
        (sampleInput .alphabetically [sampleField "a" (.scalar .float64)])
        (some ⟨[sampleField "a" (.scalar .int64)]⟩) = .ok result ∧
      result.schema = ⟨[sampleField "a" (.scalar .float64)]⟩ ∧
      Widens (.struct [sampleField "a" (.scalar .int64)]) (.struct result.schema.fields) :=
  ⟨_, rfl, by decide, @merge_widens (.ok [])
    (sampleInput .alphabetically [sampleField "a" (.scalar .float64)]) _ _ reachable_sample
    rfl ⟨by decide, by decide⟩ rfl⟩

end SchemaSanitizer
