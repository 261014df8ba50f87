/-
SchemaSanitizer/Idempotence.lean

Merging the same schema twice.  What a merge returns, once it is finished, absorbs the
incoming type at every depth (`mergeTypes_settled`): by the run rule for types, with
`FamilyStep.covered` at every level.

Sorting a level for the first time can spoil this: a member that had exactly the
incoming type has it no longer, and another one is evolved instead
(`merge_not_idempotent`).  A registry that is already sorted is safe
(`merge_idempotent_of_settled`).
-/
import SchemaSanitizer.Cover

namespace SchemaSanitizer

open List

variable {key path : Bytes} {order : FieldOrderPolicy}

/-! ### Whole types -/

/-- The condition on every node of an incoming schema: an inferred one whose fields
have names. -/
def NamedNode : LogicalType → Prop
  | .scalar _ => True
  | .struct fields => NamedLevel fields
  | .list value => value ≠ none

theorem NamedNode.inferredNode {t : LogicalType} (h : NamedNode t) : InferredNode t := by
  rcases t with k | fields | value
  · trivial
  · exact NamedLevel.toInferredLevel h
  · exact h

/-- After a merge and a finish the same fields are absorbed. -/
theorem mergeFields_settled {fs bs : List LogicalField}
    (hmerged : FamilyLevel (mergeFields key bs fs path).1)
    (hfs : (LogicalType.struct fs).Forall NamedNode) (hbs : Settled order (.struct bs))
    (hsettles : ∀ f ∈ fs, ∀ t, f.type = some t → ∀ c p q, mergeTypes key c t p = some q →
      Settled order c → Absorbs key t p (finish order q.1)) :
    mergeFields key (finishLevel order (mergeFields key bs fs path).1) fs path
      = (finishLevel order (mergeFields key bs fs path).1, []) := by
  obtain ⟨hlevel, hnested⟩ := forall_struct.mp hfs
  have hlevel : NamedLevel fs := hlevel
  have hroom : ∀ f ∈ fs, HasRoom (family f.name bs) := by
    intro f _ g hg
    exact (forall_struct.mp hbs.room).1 g (mem_family.mp hg).1
  refine mergeFields_covered (finishLevel_canonicalLevel hmerged).toFamilyLevel
    hlevel.toInferredLevel ?_
  intro f hf t ht
  refine (mergeFields_family hlevel hbs.level hroom f hf t ht).covered hbs hmerged
    (hlevel.unversioned f hf) ht ?_ ?_
  · intro g hg c hc q hq
    exact hsettles f hf t ht c _ q hq (hbs.field hg hc)
  · exact absorbs_finish key order ((hnested f hf t ht).mono fun _ => NamedNode.inferredNode) _

theorem wrapScalar_absorbed {name : Bytes} {k : ScalarKind} {c : LogicalType} :
    ∀ {fields : List LogicalField}, (fields.map FieldOf.name).Nodup → ∀ {g : LogicalField},
    g ∈ fields → g.name = name → g.type = some c →
    mergeScalarInto name k c path = some (c, []) →
    wrapScalar name k fields path = some (fields, [])
  | ⟨n, v, b⟩ :: fields, hnodup, g, hg, hname, hc, habsorbs => by
    rw [wrapScalar]
    rcases mem_cons.mp hg with rfl | hg
    · cases hc
      rw [if_pos hname, wrapScalarField]
      show ((mergeScalarInto name k c path).map _).map _ = _
      rw [habsorbs]
      simp [promotionDrifts_self]
    · have hne : n ≠ name := by
        intro he
        refine (nodup_cons.mp hnodup).1 ?_
        show n ∈ fields.map FieldOf.name
        rw [he, ← hname]
        exact mem_map_of_mem hg
      rw [if_neg hne, wrapScalar_absorbed (nodup_cons.mp hnodup).2 hg hname hc habsorbs]
      rfl

theorem mergeScalarKinds_idem {b k m : ScalarKind} (h : mergeScalarKinds b k = some m) :
    mergeScalarKinds m k = some m := by
  revert h
  cases b <;> cases k <;> simp [mergeScalarKinds] <;> rintro rfl <;> simp

/-- After a scalar is wrapped and the level finished, it is absorbed. -/
theorem wrapScalar_settled (order : FieldOrderPolicy) {k : ScalarKind} {bs : List LogicalField}
    {r : MergedFields}
    (hkey : parseVersionedFieldName (wrapperKey key) = none)
    (hwrap : wrapScalar (wrapperKey key) k bs path = some r) (hbs : FamilyLevel bs)
    (hsettles : ∀ g ∈ bs, ∀ c, g.type = some c → ∀ q, mergeTypes key c (.scalar k) path = some q →
      Absorbs key (.scalar k) path (finish order q.1)) :
    FamilyLevel r.1 ∧
      wrapScalar (wrapperKey key) k (finishLevel order r.1) path
        = some (finishLevel order r.1, []) := by
  have hlevel : FamilyLevel r.1 := (wrapScalar_step hwrap).familyLevel hbs (by simp) hkey
  have hfinished : CanonicalLevel (finishLevel order r.1) := finishLevel_canonicalLevel hlevel
  refine ⟨hlevel, ?_⟩
  -- enough: some field of the merged level has the wrapper's name and absorbs the scalar
  have hfound : ∀ {g : LogicalField} {c : LogicalType}, g ∈ r.1 → g.name = wrapperKey key →
      g.type = some c → Absorbs key (.scalar k) path (finish order c) →
      wrapScalar (wrapperKey key) k (finishLevel order r.1) path
        = some (finishLevel order r.1, []) := by
    intro g c hg hname hc habsorbs
    rw [Absorbs, mergeTypes_scalar] at habsorbs
    refine wrapScalar_absorbed hfinished.names.nodup (finishField_mem hlevel hg) ?_ ?_ habsorbs
    · exact (finishField_name (hname ▸ hkey)).trans hname
    · rw [finishField_type, hc]
      rfl
  rcases wrapScalar_cases hwrap with ⟨-, hr⟩ | ⟨i, g, hg, -, hc, -⟩ |
    ⟨i, g, c, m, hg, hname, hc, hm, hr⟩
  · refine hfound (g := ⟨wrapperKey key, some (.scalar k), true⟩) ?_ rfl rfl ?_
    · rw [hr]
      exact mem_append_right _ mem_cons_self
    · exact absorbs_finish key order (forall_scalar.mpr trivial) path
  · exact absurd hc (hbs.typed g (mem_of_getElem? hg))
  · refine hfound (g := { g with type := some m.1 }) ?_ hname rfl ?_
    · rw [hr]
      exact mem_set (List.getElem?_eq_some_iff.mp hg).1 _
    · refine hsettles g (mem_of_getElem? hg) c hc m ?_
      rw [mergeTypes_scalar]
      exact hm

/-- **What a merge returns absorbs the incoming type**, once it is finished. -/
theorem mergeTypes_settled (order : FieldOrderPolicy)
    (hkey : parseVersionedFieldName (wrapperKey key) = none) (t : LogicalType) :
    ∀ base path r, mergeTypes key base t path = some r → Settled order base →
    t.Forall NamedNode → Absorbs key t path (finish order r.1) := by
  refine mergeTypes_rule (R := fun base t path r => Settled order base → t.Forall NamedNode →
    Absorbs key t path (finish order r.1))
    ⟨?scalar, ?wrap, ?struct, ?enter, ?listNone, ?listSome⟩ t
  case scalar =>
    intro b k m path hm _ _
    rw [finish_scalar, Absorbs, mergeTypes_scalar, mergeScalarInto, mergeScalarKinds_idem hm]
    rfl
  case wrap =>
    intro bs k path r hwrap ih hbs hk
    obtain ⟨hlevel, hagain⟩ := wrapScalar_settled order hkey hwrap hbs.level
      fun g hg c hc q hq => ih g hg c hc _ q hq (hbs.field hg hc) hk
    rw [finish_struct hlevel, Absorbs, mergeTypes_scalar, mergeScalarInto, hagain]
    rfl
  case struct =>
    intro bs fs path ih hbs hfs
    have hfamilies := (familyInvariant hkey).mergeFields path
      (hfs.mono fun _ => NamedNode.inferredNode)
      (hbs.canonical.mono fun _ => CanonicalNode.familyNode)
    have hlevel : FamilyLevel (mergeFields key bs fs path).1 := (forall_struct.mp hfamilies).1
    have hagain := mergeFields_settled hlevel hfs hbs fun f hf t ht c p q hq hc =>
      ih f hf t ht c p q hq hc ((forall_struct.mp hfs).2 f hf t ht)
    rw [finish_struct hlevel, Absorbs, mergeTypes_struct, mergeStructInto, hagain]
  case enter =>
    intro e t path r ht ih he hnamed
    have habsorbs := ih he.element hnamed
    rw [finish_list, Option.map_some, Absorbs, mergeTypes_enter ht, habsorbs]
    rfl
  case listNone =>
    intro e path _ _
    rw [finish_list, Option.map_some, Absorbs, mergeTypes_list]
    rfl
  case listSome =>
    intro e t path r ih he hnamed
    have habsorbs := ih he.element (forall_listSome.mp hnamed).2
    rw [finish_list, Option.map_some, Absorbs, mergeTypes_list]
    show (mergeTypes key _ t _).map _ = _
    rw [habsorbs]
    rfl

/-! ### Registry merges -/

theorem applyOrder_normalize {schema : LogicalSchema} (h : FamilyLevel schema.fields) :
    applyOrder order (normalizeIntegerFloatSchema schema) = ⟨finishLevel order schema.fields⟩ := by
  have hfields : _ = finish order _ := applyOrder_normalize_struct schema
  rw [finish_struct h] at hfields
  exact congrArg LogicalSchema.mk (LogicalType.struct.inj hfields)

theorem finishLevel_ne_nil {fields : List LogicalField} (h : FamilyLevel fields)
    (hne : fields ≠ []) : finishLevel order fields ≠ [] := by
  intro hnil
  have hperm : (finishLevel order fields).Perm (fields.map (finishField order)) :=
    finishLevel_perm h
  rw [hnil] at hperm
  exact hne (map_eq_nil_iff.mp hperm.nil_eq.symm)

theorem mergeFields_ne_nil {fs : List LogicalField} :
    ∀ out : List LogicalField, out ≠ [] → (mergeFields key out fs path).1 ≠ [] := by
  refine mergeFields_run (S := fun out r => out ≠ [] → r.1 ≠ []) (fun _ h => h) ?_
  intro f _ out r s hstep hrest hout
  refine hrest ?_
  cases hstep with
  | unchanged => exact hout
  | evolved | filled => simpa using hout
  | added => simp
  | variant => simp

/-- A schema that absorbs the inferred fields is returned without events. -/
theorem additiveMerge_absorbed {fields : List LogicalField} {inferred : LogicalSchema}
    (hcanonical : (LogicalType.struct fields).Canonical)
    (hsorted : order = .alphabetically → (LogicalType.struct fields).Alphabetical)
    (hne : fields ≠ []) (hinferred : inferred.Canonical)
    (habsorbs : mergeFields key fields inferred.fields [] = (fields, [])) :
    additiveMerge key order ⟨fields⟩ inferred = (⟨fields⟩, []) := by
  have hschema : LogicalSchema.Canonical ⟨fields⟩ := hcanonical
  have hlevel : FamilyLevel fields := CanonicalLevel.toFamilyLevel (forall_struct.mp hcanonical).1
  have hfinished := finish_eq_self hcanonical hsorted
  rw [finish_struct hlevel] at hfinished
  unfold additiveMerge
  rw [if_neg (by exact hne)]
  dsimp only
  rw [hschema.normalize_eq, hinferred.normalize_eq, habsorbs, applyOrder_normalize hlevel,
    LogicalType.struct.inj hfinished]

/-- **An additive merge into a settled schema is idempotent.** -/
theorem additiveMerge_idem {previous inferred : LogicalSchema} (hne : key ≠ [])
    (hkey : parseVersionedFieldName key = none)
    (hprevious : Settled order (.struct previous.fields))
    (hinferred : (LogicalType.struct inferred.fields).Forall NamedNode) :
    additiveMerge key order (additiveMerge key order previous inferred).1 inferred
      = ((additiveMerge key order previous inferred).1, []) := by
  have hplain : inferred.Inferred := hinferred.mono fun _ => NamedNode.inferredNode
  have hlevel : FamilyLevel inferred.fields := InferredLevel.familyLevel (forall_struct.mp hplain).1
  have hnorm := hplain.canonical.normalize_eq
  -- the published form of a merged level is canonical and in order
  have hpublished : ∀ {fields : List LogicalField},
      (LogicalType.struct fields).Forall FamilyNode →
      (LogicalType.struct (finishLevel order fields)).Canonical ∧
        (order = .alphabetically →
          (LogicalType.struct (finishLevel order fields)).Alphabetical) := by
    intro fields h
    rw [← finish_struct (forall_struct.mp h).1]
    exact ⟨finish_canonical h, finish_alphabetical _⟩
  by_cases hempty : previous.fields = []
  · have hfirst : (additiveMerge key order previous inferred).1
        = ⟨finishLevel order inferred.fields⟩ := by
      unfold additiveMerge
      rw [if_pos hempty]
      dsimp only
      rw [hnorm, applyOrder_normalize hlevel]
    rw [hfirst]
    by_cases hnil : inferred.fields = []
    · obtain ⟨fields⟩ := inferred
      subst hnil
      cases order <;> rfl
    · obtain ⟨hcanonical, hsorted⟩ :=
        hpublished (hplain.mono fun _ => InferredNode.familyNode)
      refine additiveMerge_absorbed hcanonical hsorted ?_ hplain.canonical ?_
      · exact finishLevel_ne_nil hlevel hnil
      · have habsorbs := absorbs_finish key order hplain []
        rw [finish_struct hlevel, Absorbs, mergeTypes_struct, mergeStructInto] at habsorbs
        have hpair := Option.some.inj habsorbs
        exact Prod.ext (LogicalType.struct.inj (Prod.mk.inj hpair).1) (Prod.mk.inj hpair).2
  · have hwrap : parseVersionedFieldName (wrapperKey key) = none := by
      rwa [wrapperKey_of_ne_nil hne]
    have hpcanonical : previous.Canonical := hprevious.canonical
    have hmerged := mergeFields_canonical [] hne hkey hprevious.canonical hplain
    have hmergedLevel : FamilyLevel (mergeFields key previous.fields inferred.fields []).1 :=
      (forall_struct.mp hmerged).1
    have hfirst : (additiveMerge key order previous inferred).1
        = ⟨finishLevel order (mergeFields key previous.fields inferred.fields []).1⟩ := by
      unfold additiveMerge
      rw [if_neg hempty]
      dsimp only
      rw [hnorm, hpcanonical.normalize_eq, applyOrder_normalize (by exact hmergedLevel)]
    obtain ⟨hcanonical, hsorted⟩ := hpublished hmerged
    rw [hfirst]
    refine additiveMerge_absorbed hcanonical hsorted ?_ hplain.canonical ?_
    · exact finishLevel_ne_nil hmergedLevel (mergeFields_ne_nil _ hempty)
    · refine mergeFields_settled hmergedLevel hinferred hprevious ?_
      intro f hf t ht c p q hq hc
      exact mergeTypes_settled order hwrap t c p q hq hc ((forall_struct.mp hinferred).2 f hf t ht)

/-- Every field of a struct has a name. -/
def NonemptyNode : LogicalType → Prop
  | .struct fields => ∀ f ∈ fields, f.name ≠ []
  | _ => True

instance : DecidablePred NonemptyNode
  | .scalar _ => inferInstanceAs (Decidable True)
  | .struct fields => inferInstanceAs (Decidable (∀ f ∈ fields, f.name ≠ []))
  | .list _ => inferInstanceAs (Decidable True)

instance : DecidablePred RoomNode
  | .scalar _ => inferInstanceAs (Decidable True)
  | .struct fields => inferInstanceAs (Decidable (HasRoom fields))
  | .list _ => inferInstanceAs (Decidable True)

/-- Every level is in alphabetical order. -/
def LogicalSchema.Alphabetical (schema : LogicalSchema) : Prop :=
  (LogicalType.struct schema.fields).Forall AlphabeticalNode

instance : DecidablePred LogicalSchema.Alphabetical := fun schema =>
  inferInstanceAs (Decidable ((LogicalType.struct schema.fields).Forall AlphabeticalNode))

/-- No field name is empty, at any level. -/
def LogicalSchema.NonemptyNames (schema : LogicalSchema) : Prop :=
  (LogicalType.struct schema.fields).Forall NonemptyNode

instance : DecidablePred LogicalSchema.NonemptyNames := fun schema =>
  inferInstanceAs (Decidable ((LogicalType.struct schema.fields).Forall NonemptyNode))

/-- No version number is the largest `int`, at any level. -/
def LogicalSchema.HasRoom (schema : LogicalSchema) : Prop :=
  (LogicalType.struct schema.fields).Forall RoomNode

instance : DecidablePred LogicalSchema.HasRoom := fun schema =>
  inferInstanceAs (Decidable ((LogicalType.struct schema.fields).Forall RoomNode))

theorem namedNode_of_nonempty {t : LogicalType} (h : InferredNode t) (hne : NonemptyNode t) :
    NamedNode t := by
  rcases t with k | fields | value
  · trivial
  · exact { toInferredLevel := h, nonempty := hne }
  · exact h

/-- **Merging the same schema twice.**  If the order policy asks for no sorting or the
registry is already sorted, the incoming fields have names, and no version number has run
out, then the second merge reports no drift and returns the schema of the first. -/
theorem merge_idempotent_of_settled {clock : Except Bytes Bytes}
    {input : SchemaRegistryMergeInput} {previous : LogicalSchema}
    {result : SchemaRegistryMergeResult} (registry : Bytes) (hreachable : Reachable previous)
    (hmode : input.schemaEvolution = .additive) (hinput : InferredInput previous input)
    (horder : input.fieldOrder = .schemaContractFirst ∨ previous.Alphabetical)
    (hnames : input.inferredSchema.NonemptyNames) (hroom : previous.HasRoom)
    (hok : mergeSchemaRegistryWithPrevious clock input (some previous) = .ok result) :
    ∃ again, mergeSchemaRegistryWithPrevious clock { input with registryJson := registry }
        (some result.schema) = .ok again ∧
      again.drifts = [] ∧ again.schema = result.schema := by
  have hsettled : Settled input.fieldOrder (.struct previous.fields) := by
    refine ⟨reachable_canonical hreachable, ?_, hroom⟩
    intro ho
    rcases horder with hfirst | hsorted
    · rw [hfirst] at ho
      cases ho
    · exact hsorted
  have hnamed : (LogicalType.struct input.inferredSchema.fields).Forall NamedNode :=
    fun t ht => namedNode_of_nonempty (hinput.1 t ht) (hnames t ht)
  have hidem := additiveMerge_idem (merge_ok hok).2.1 hinput.2 hsettled hnamed
  rw [merge_ok_additive hmode hok] at hidem
  obtain ⟨again, hagain, hpair⟩ := merge_again hmode hok registry result.schema
  rw [hidem] at hpair
  obtain ⟨hschema, hdrifts⟩ := Prod.mk.inj hpair
  exact ⟨again, hagain, hdrifts.symm, hschema.symm⟩

theorem merge_idempotent_of_settled_sample :
    ∃ result, mergeSchemaRegistryWithPrevious (.ok [])
        (sampleInput .schemaContractFirst [sampleField "a" (.scalar .utf8)])
        (some ⟨[sampleField "a" (.scalar .int64)]⟩) = .ok result ∧ result.drifts ≠ [] ∧
      ∃ again, mergeSchemaRegistryWithPrevious (.ok [])
          (sampleInput .schemaContractFirst [sampleField "a" (.scalar .utf8)])
          (some result.schema) = .ok again ∧
        again.drifts = [] ∧ again.schema = result.schema :=
  ⟨_, rfl, by decide, @merge_idempotent_of_settled (.ok [])
    (sampleInput .schemaContractFirst [sampleField "a" (.scalar .utf8)]) _ _
    (bytes "\x7b\x7d") reachable_sample rfl ⟨by decide, by decide⟩ (.inl rfl) (by decide)
    (by decide) rfl⟩

/-- A registry that keeps its order of arrival and has seen a column `a` as an integer, as a
struct, and as a list of structs. -/
def sampleVersions : LogicalSchema :=
  ⟨[sampleField "a" (.scalar .int64), sampleField "a_v2_struct" (sampleStruct ["y", "x"]),
    sampleField "a_v3_struct_array" (.list (some (sampleStruct ["z"])))]⟩

theorem reachable_sampleVersions : Reachable sampleVersions := by
  have hstruct : Reachable ⟨[sampleField "a" (.scalar .int64),
      sampleField "a_v2_struct" (sampleStruct ["y", "x"])]⟩ := by
    refine Relation.ReflTransGen.tail reachable_sample ⟨.ok [],
      sampleInput .schemaContractFirst [sampleField "a" (sampleStruct ["y", "x"])], _, rfl,
      ⟨?_, ?_⟩, rfl, rfl⟩
    · decide
    · decide
  refine Relation.ReflTransGen.tail hstruct ⟨.ok [],
    sampleInput .schemaContractFirst [sampleField "a" (.list (some (sampleStruct ["z"])))], _, rfl,
    ⟨?_, ?_⟩, rfl, rfl⟩
  · decide
  · decide

/-- **The first sorting spoils a second merge.**  The struct `a` is found in the registry, so
the first merge reports nothing; but it sorts the fields of `a_v2_struct`, and the second
merge of the same schema evolves `a_v3_struct_array`. -/
theorem merge_not_idempotent :
    ∃ first again,
      Reachable sampleVersions ∧
      InferredInput sampleVersions
        (sampleInput .alphabetically [sampleField "a" (sampleStruct ["y", "x"])]) ∧
      mergeSchemaRegistryWithPrevious (.ok [])
        (sampleInput .alphabetically [sampleField "a" (sampleStruct ["y", "x"])])
        (some sampleVersions) = .ok first ∧
      mergeSchemaRegistryWithPrevious (.ok [])
        (sampleInput .alphabetically [sampleField "a" (sampleStruct ["y", "x"])])
        (some first.schema) = .ok again ∧
      first.drifts = [] ∧ again.drifts ≠ [] ∧ again.schema ≠ first.schema :=
  ⟨_, _, reachable_sampleVersions, ⟨by decide, by decide⟩, rfl, rfl, by decide, by decide,
    by decide⟩

end SchemaSanitizer
