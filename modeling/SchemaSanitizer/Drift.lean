/-
SchemaSanitizer/Drift.lean

Drift events are exactly the changes of the canonical schema.

Every step of a merge adds to a schema or widens a scalar in it, so each step that
changes anything increases a weight, and a step that increases the weight of a
level emits an event (`LevelStep.drift`).  The weight does not see the order of
siblings, the names, or what the normalizer does to a merged schema.  Hence

* no event: the merged schema is the previous one, and the result is at most
  reordered;
* an event: the result weighs more, so it is not the previous schema in any
  order.

`drift_iff_schema_changes` states this for every reachable registry.
-/
import SchemaSanitizer.Reachable

namespace SchemaSanitizer

open List

/-! ### Equality up to sibling order -/

/-- Two types are the same up to the order of siblings, at every level. -/
inductive SameUpToOrder : LogicalType → LogicalType → Prop
  | scalar (k : ScalarKind) : SameUpToOrder (.scalar k) (.scalar k)
  | listNone : SameUpToOrder (.list none) (.list none)
  | listSome {t u : LogicalType} (h : SameUpToOrder t u) :
      SameUpToOrder (.list (some t)) (.list (some u))
  | struct {fs gs hs : List LogicalField} (hperm : hs.Perm gs) (hlen : fs.length = hs.length)
      (hfield : ∀ (i : Nat) (f h : LogicalField), fs[i]? = some f → hs[i]? = some h →
        f.name = h.name ∧ f.nullable = h.nullable ∧ (f.type = none ↔ h.type = none))
      (htype : ∀ (i : Nat) (f h : LogicalField) (t u : LogicalType), fs[i]? = some f →
        hs[i]? = some h → f.type = some t → h.type = some u → SameUpToOrder t u) :
      SameUpToOrder (.struct fs) (.struct gs)

theorem sameUpToOrder_refl (t : LogicalType) : SameUpToOrder t t := by
  induction t with
  | scalar k => exact .scalar k
  | struct fs ih =>
    refine .struct (List.Perm.refl fs) rfl ?_ ?_
    · intro i f h hf hh
      rw [hf] at hh
      cases hh
      exact ⟨rfl, rfl, Iff.rfl⟩
    · intro i f h t u hf hh ht hu
      rw [hf] at hh
      cases hh
      rw [ht] at hu
      cases hu
      exact ih f (mem_of_getElem? hf) t ht
  | listNone => exact .listNone
  | listSome t ih => exact .listSome ih

theorem sameUpToOrder_alphabetize {t : LogicalType} (h : t.Canonical) :
    SameUpToOrder t (alphabetize t) := by
  refine levelMap_alphabetize.rule .scalar (fun _ => .listNone) .listSome
    (fun {fs} hlevel ih => ?_) h
  have hlevel : CanonicalLevel fs := hlevel
  have hnodup : ((fs.map (FieldOf.mapType alphabetize)).map FieldOf.name).Nodup := by
    rw [map_map]
    exact hlevel.names.nodup
  refine .struct (sortFields_perm hnodup).symm (by simp) ?_ ?_
  · intro i f g hf hg
    rw [getElem?_map, hf] at hg
    cases hg
    simp
  · intro i f g t u hf hg ht hu
    rw [getElem?_map, hf] at hg
    cases hg
    rw [mapType_type, ht] at hu
    cases hu
    exact ih f (mem_of_getElem? hf) t ht

/-! ### Weight -/

/-- Null below every scalar, integers below floats. -/
def ScalarKind.weight : ScalarKind → Nat
  | .null => 1
  | .float64 => 3
  | _ => 2

mutual

/-- The weight of a type: what a merge can only increase. -/
def LogicalType.weight : LogicalType → Nat
  | .scalar k => k.weight
  | .struct fs => 1 + weightFields fs
  | .list v => 1 + weightValue v

/-- The weight of an optional type. -/
def weightValue : Option LogicalType → Nat
  | none => 0
  | some t => t.weight

/-- The weight of a field: one more than its type. -/
def weightField : LogicalField → Nat
  | ⟨_, v, _⟩ => 1 + weightValue v

/-- The weight of a level. -/
def weightFields : List LogicalField → Nat
  | [] => 0
  | f :: fs => weightField f + weightFields fs

end

variable {out : List LogicalField}

theorem weightField_eq (f : LogicalField) : weightField f = 1 + weightValue f.type := by
  cases f
  rfl

theorem weightFields_eq_sum : ∀ fs : List LogicalField, weightFields fs = (fs.map weightField).sum
  | [] => rfl
  | f :: fs => by rw [weightFields, weightFields_eq_sum fs, map_cons, sum_cons]

theorem weightFields_append (fs gs : List LogicalField) :
    weightFields (fs ++ gs) = weightFields fs + weightFields gs := by
  simp only [weightFields_eq_sum, map_append, sum_append]

theorem weightFields_set {i : Nat} {g g' : LogicalField} (hg : out[i]? = some g)
    (hlt : weightField g < weightField g') : weightFields out < weightFields (out.set i g') := by
  obtain ⟨hi, rfl⟩ := List.getElem?_eq_some_iff.mp hg
  have hsplit : out = out.take i ++ out[i] :: out.drop (i + 1) := by
    rw [getElem_cons_drop, take_append_drop]
  have hset : out.set i g' = out.take i ++ g' :: out.drop (i + 1) :=
    set_eq_take_append_cons_drop.trans (if_pos hi)
  rw [hset]
  conv_lhs => rw [hsplit]
  simp only [weightFields_append, weightFields]
  omega

theorem weight_sameUpToOrder {t u : LogicalType} (h : SameUpToOrder t u) : t.weight = u.weight := by
  induction h with
  | scalar k => rfl
  | listNone => rfl
  | listSome h ih => exact congrArg (1 + ·) ih
  | @struct fs gs hs hperm hlen hfield htype ih =>
    have hpoint : fs.map weightField = hs.map weightField := by
      refine ext_getElem (by simpa using hlen) fun i hi hi' => ?_
      rw [getElem_map, getElem_map, weightField_eq, weightField_eq]
      have hlt : i < fs.length := by simpa using hi
      have hlt' : i < hs.length := by simpa using hi'
      have hf := getElem?_eq_getElem hlt
      have hh := getElem?_eq_getElem hlt'
      obtain ⟨-, -, hnone⟩ := hfield i _ _ hf hh
      rcases ht : fs[i].type with - | t
      · rw [hnone.mp ht]
      · rcases hu : hs[i].type with - | u
        · rw [hnone.mpr hu] at ht
          cases ht
        · exact congrArg (1 + ·) (ih i _ _ t u hf hh ht hu)
    show 1 + weightFields fs = 1 + weightFields gs
    rw [weightFields_eq_sum, weightFields_eq_sum, hpoint, (hperm.map weightField).sum_eq]

/-! ### A merge that changes something weighs more -/

variable {key : Bytes}

/-- **A step that changes a level makes it heavier and emits an event.** -/
theorem LevelStep.drift {path : Bytes} {f : LogicalField}
    {r : MergedFields} (h : LevelStep key path f out r) (hout : FamilyLevel out)
    (ih : ∀ t, f.type = some t → ∀ g ∈ out, ∀ c, g.type = some c →
      ∀ q, mergeTypes key c t path = some q → q = (c, []) ∨ c.weight < q.1.weight) :
    r = (out, []) ∨ (weightFields out < weightFields r.1 ∧ r.2 ≠ []) := by
  cases h with
  | unchanged => exact .inl rfl
  | @evolved i g c t q ht hg hfam hc hr =>
    rcases ih t ht g (mem_of_getElem? hg) c hc q hr with rfl | hlt
    · -- the member took the type without changing
      refine .inl ?_
      have hself : ({ g with type := some c } : LogicalField) = g := by rw [← hc]
      obtain ⟨hi, rfl⟩ := List.getElem?_eq_some_iff.mp hg
      simp only [hself, set_getElem_self, promotionDrifts, ne_eq, not_true_eq_false,
        false_and, if_false]
    · refine .inr ⟨weightFields_set hg ?_, ?_⟩
      · rw [weightField_eq, weightField_eq, hc]
        exact Nat.add_lt_add_left hlt 1
      · have hne : c ≠ q.1 := fun heq => absurd hlt (heq ▸ lt_irrefl _)
        unfold promotionDrifts
        split
        · simp
        · rename_i hcond
          exact fun hnil => hcond ⟨hne, hnil⟩
  | filled hg hname hc => exact absurd hc (hout.typed _ (mem_of_getElem? hg))
  | added | variant =>
    refine .inr ⟨?_, by simp⟩
    rw [weightFields_append, weightFields, weightFields, weightField_eq]
    omega

/-- A merge changes the fields exactly when it records an event: the weight tells. -/
theorem mergeFields_drift (path : Bytes)
    (hkey : parseVersionedFieldName (wrapperKey key) = none) {fs : List LogicalField}
    (hfs : (LogicalType.struct fs).Forall InferredNode)
    (ih : ∀ f ∈ fs, ∀ t, f.type = some t → ∀ c p q, mergeTypes key c t p = some q →
      c.Forall FamilyNode → q = (c, []) ∨ c.weight < q.1.weight)
        (hout : (LogicalType.struct out).Forall FamilyNode) :
    mergeFields key out fs path = (out, []) ∨
      (weightFields out < weightFields (mergeFields key out fs path).1 ∧
        (mergeFields key out fs path).2 ≠ []) := by
  have hlevel := forall_struct.mp hfs
  refine mergeFields_run (S := fun out r => (LogicalType.struct out).Forall FamilyNode →
    r = (out, []) ∨ (weightFields out < weightFields r.1 ∧ r.2 ≠ []))
    (fun _ _ => .inl rfl) ?_ out hout
  intro f hf out r s hstep hrest hout
  have hnested := (forall_struct.mp hout).2
  -- the step keeps the invariant, so the rest of the loop applies to its result
  have hr : (LogicalType.struct r.1).Forall FamilyNode :=
    (familyInvariant hkey).levelStep hstep ⟨hlevel.1.typed f hf, hlevel.1.unversioned f hf⟩
      (hlevel.2 f hf) hout
  have hfirst : r = (out, []) ∨ (weightFields out < weightFields r.1 ∧ r.2 ≠ []) := by
    refine hstep.drift (forall_struct.mp hout).1 ?_
    intro t ht g hg c hc q hq
    exact ih f hf t ht c _ q hq (hnested g hg c hc)
  rcases hfirst with rfl | ⟨hlt, hne⟩
  · simpa using hrest hr
  · refine .inr ⟨?_, by simp [hne]⟩
    rcases hrest hr with hs | ⟨hlt', -⟩
    · rw [hs]
      exact hlt
    · exact hlt.trans hlt'

/-- **A merge of types changes nothing, or makes the type heavier.** -/
theorem mergeTypes_drift (hkey : parseVersionedFieldName (wrapperKey key) = none)
    (t : LogicalType) : ∀ base path r, mergeTypes key base t path = some r →
    t.Forall InferredNode → base.Forall FamilyNode →
    r = (base, []) ∨ base.weight < r.1.weight := by
  refine mergeTypes_rule (R := fun base t _ r => t.Forall InferredNode →
    base.Forall FamilyNode → r = (base, []) ∨ base.weight < r.1.weight)
    ⟨?scalar, ?wrap, ?struct, ?enter, ?listNone, ?listSome⟩ t
  case scalar =>
    intro b k m _ hm _ _
    rcases mergeScalarKinds_cases hm with rfl | ⟨rfl, -, rfl⟩ | ⟨rfl, rfl, hnull⟩
    · exact .inl rfl
    · exact .inr (by decide)
    · refine .inr ?_
      cases m
      · exact absurd rfl hnull
      all_goals decide
  case wrap =>
    intro bs k path r hwrap ih hk hbs
    have hdrift := (wrapScalar_step hwrap).drift (forall_struct.mp hbs).1 (by
      rintro t ⟨rfl⟩ g hg c hc q hq
      exact ih g hg c hc _ q hq hk ((forall_struct.mp hbs).2 g hg c hc))
    rcases hdrift with rfl | ⟨hlt, -⟩
    · exact .inl rfl
    · exact .inr (Nat.add_lt_add_left hlt 1)
  case struct =>
    intro bs fs path ih hfs hbs
    have hnested := (forall_struct.mp hfs).2
    rcases mergeFields_drift path hkey hfs
        (fun f hf t ht c p q hq => ih f hf t ht c p q hq (hnested f hf t ht)) hbs with hr | ⟨hlt, -⟩
    · rw [hr]
      exact .inl rfl
    · exact .inr (Nat.add_lt_add_left hlt 1)
  case enter =>
    intro e t _ r _ ih ht hbase
    rcases ih ht (forall_listSome.mp hbase).2 with rfl | hlt
    · exact .inl rfl
    · exact .inr (Nat.add_lt_add_left hlt 1)
  case listNone =>
    intro e _ _ _
    exact .inl rfl
  case listSome =>
    intro e t _ r ih ht hbase
    rcases ih (forall_listSome.mp ht).2 (forall_listSome.mp hbase).2 with rfl | hlt
    · exact .inl rfl
    · exact .inr (Nat.add_lt_add_left hlt 1)

/-! ### The normalizer and the order do not weigh anything -/

theorem weight_normalize {t : LogicalType} (h : t.Forall FamilyNode) :
    (normalizeIntegerFloatType t).weight = t.weight := by
  refine levelMap_normalize.rule (R := fun t u => u.weight = t.weight) (fun _ => rfl)
    (fun _ => rfl) (fun hu => congrArg (1 + ·) hu) (fun {fs} hlevel ih => ?_) h
  rw [normalizeIntegerFloatFields_families hlevel]
  show 1 + weightFields _ = 1 + weightFields fs
  rw [weightFields_eq_sum, weightFields_eq_sum, map_map, map_map]
  refine congrArg (fun l => 1 + sum l) (map_congr_left fun f hf => ?_)
  show weightField (canonicalizeVersionedNameForType (f.mapType _)) = weightField f
  rw [weightField_eq, weightField_eq, canonicalize_type, mapType_type]
  rcases ht : f.type with - | t
  · rfl
  · exact congrArg (1 + ·) (ih f hf t ht)

theorem sameUpToOrder_applyOrder (order : FieldOrderPolicy) {schema : LogicalSchema}
    (h : schema.Canonical) :
    SameUpToOrder (.struct schema.fields) (.struct (applyOrder order schema).fields) :=
  applyOrder_rule order (sameUpToOrder_refl _) (sameUpToOrder_alphabetize h)

/-- An additive merge emits an event exactly when the fields change beyond their order. -/
theorem additiveMerge_drift (order : FieldOrderPolicy) {previous inferred : LogicalSchema}
    (hne : key ≠ []) (hkey : parseVersionedFieldName key = none) (hprevious : previous.Canonical)
    (hnonempty : previous.fields ≠ []) (hinferred : inferred.Inferred) :
    (additiveMerge key order previous inferred).2 ≠ [] ↔
      ¬ SameUpToOrder (.struct previous.fields)
        (.struct (additiveMerge key order previous inferred).1.fields) := by
  have hwrap : parseVersionedFieldName (wrapperKey key) = none := by
    rwa [wrapperKey_of_ne_nil hne]
  have hmerged := mergeFields_canonical [] hne hkey hprevious hinferred
  have hdrift := mergeFields_drift [] hwrap hinferred
    (fun f hf t ht c p q hq hc =>
      mergeTypes_drift hwrap t c p q hq ((forall_struct.mp hinferred).2 f hf t ht) hc)
    (hprevious.mono fun _ => CanonicalNode.familyNode)
  simp only [additiveMerge, if_neg hnonempty, hprevious.normalize_eq,
    hinferred.canonical.normalize_eq]
  generalize hm : mergeFields key previous.fields inferred.fields [] = merged at hmerged hdrift ⊢
  have hcanonical : (normalizeIntegerFloatSchema ⟨merged.1⟩).Canonical :=
    normalize_canonical hmerged
  have horder := sameUpToOrder_applyOrder order hcanonical
  rcases hdrift with rfl | ⟨hlt, hevents⟩
  · -- nothing was merged: the result is the previous schema, reordered
    have hid : normalizeIntegerFloatSchema ⟨previous.fields⟩ = previous := hprevious.normalize_eq
    rw [hid] at horder ⊢
    exact iff_of_false (by simp) (not_not.mpr horder)
  · refine iff_of_true hevents fun hsame => ?_
    have hweight := (weight_sameUpToOrder hsame).trans (weight_sameUpToOrder horder).symm
    have hnorm : (LogicalType.struct (normalizeIntegerFloatSchema ⟨merged.1⟩).fields).weight
        = (LogicalType.struct merged.1).weight := weight_normalize hmerged
    rw [hnorm] at hweight
    exact absurd hweight (Nat.ne_of_lt (Nat.add_lt_add_left hlt 1))

/-- **Drift means change.**  For every non-empty reachable registry and every
inferred schema, an additive merge emits an event if and only if the returned
canonical schema differs from the previous one beyond sibling order; so the
generation written is one more than the one read exactly when the schema changed,
and the one read otherwise. -/
theorem drift_iff_schema_changes {clock : Except Bytes Bytes} {input : SchemaRegistryMergeInput}
    {previous : LogicalSchema} {result : SchemaRegistryMergeResult}
    (hreach : Reachable previous) (hnonempty : previous.fields ≠ [])
    (hmode : input.schemaEvolution = .additive) (hinput : InferredInput previous input)
    (hok : mergeSchemaRegistryWithPrevious clock input (some previous) = .ok result) :
    (result.drifts ≠ [] ↔
      ¬ SameUpToOrder (.struct previous.fields) (.struct result.schema.fields)) ∧
    ∃ generation, result.registryJson
        = registryDocument result.schema input.fieldNamePolicy generation ∧
      (¬ SameUpToOrder (.struct previous.fields) (.struct result.schema.fields) →
        generation = int64Add (parseSchemaGeneration input.registryJson) 1) ∧
      (SameUpToOrder (.struct previous.fields) (.struct result.schema.fields) →
        generation = parseSchemaGeneration input.registryJson) := by
  obtain ⟨-, hne, -, hjson⟩ := merge_ok hok
  have hiff := additiveMerge_drift input.fieldOrder hne hinput.2
    (reachable_canonical hreach) hnonempty hinput.1
  rw [merge_ok_additive hmode hok] at hiff
  refine ⟨hiff, _, hjson, ?_, ?_⟩
  · intro hchanged
    have hdrifts : result.drifts.isEmpty = false :=
      isEmpty_eq_false_iff.mpr (hiff.mpr hchanged)
    simp [hdrifts]
  · intro hsame
    have hdrifts : result.drifts = [] := not_not.mp fun h => hiff.mp h hsame
    obtain ⟨hlo, hhi⟩ := parseSchemaGeneration_range input.registryJson
    rw [hdrifts]
    show int64Add _ 0 = _
    rw [int64Add_of_le (by rw [int64Min]; omega) (by omega), Int.add_zero]

/-- The law on a merge that evolves: a string arrives for the integer column. -/
theorem drift_iff_schema_changes_sample :
    ∃ result, mergeSchemaRegistryWithPrevious (.ok [])
        (sampleInput .alphabetically [sampleField "a" (.scalar .utf8)])
        (some ⟨[sampleField "a" (.scalar .int64)]⟩) = .ok result ∧ result.drifts ≠ [] ∧
      ¬ SameUpToOrder (.struct [sampleField "a" (.scalar .int64)])
        (.struct result.schema.fields) := by
  refine ⟨_, rfl, ?drifts, ?changed⟩
  case drifts => decide
  case changed =>
    have hiff := @drift_iff_schema_changes (.ok [])
      (sampleInput .alphabetically [sampleField "a" (.scalar .utf8)]) _ _ reachable_sample
      (by decide) rfl ⟨by decide, by decide⟩ rfl
    exact hiff.1.mp (by decide)

end SchemaSanitizer
