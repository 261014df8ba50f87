/-
SchemaSanitizer/Distinct.lean

Distinct sibling names over whole runs, for schemas whose field names may themselves
look versioned.

The normalizer renames a versioned field whose suffix does not name its type, and
drops it if a field of that name and type was just emitted.  So two columns can end
under one name: `a_v2_foo` and `a_v2_struct`, both structs, but of different fields
(`merge_duplicates_names`).

The invariant that excludes this is `StableLevel`: names are distinct, and a versioned
field either has the suffix of its type or a type that is determined by its semantic
name (`Pinned`), as every scalar is.  Merging keeps it, since a merge that changes the
semantic name of a column ends in a scalar (`semantic_of_merge`), and normalizing it
leaves the names distinct.  What has to be assumed of the incoming schemas is only that
no two siblings of the same base and number have one semantic name and different types.
-/
import SchemaSanitizer.Finish

namespace SchemaSanitizer

open List

/-! ### Types that are determined by their semantic names -/

variable {t : LogicalType} {key : Bytes}

/-- The semantic name determines the type. -/
def Pinned (t : LogicalType) : Prop :=
  ∀ u, variantSemanticType u = variantSemanticType t → u = t

theorem semantic_list_getLast (v : Option LogicalType) :
    (variantSemanticType (.list v)).getLast? = some (byte 'y') := by
  rw [variantSemanticType, getLast?_append_of_ne_nil _ (by decide)]
  decide

theorem semantic_getLast_ne (h : ∀ v, t ≠ .list v) :
    (variantSemanticType t).getLast? ≠ some (byte 'y') := by
  rcases t with k | fields | v
  · show k.semanticName.getLast? ≠ some (byte 'y')
    cases k <;> decide
  · show (bytes "struct").getLast? ≠ some (byte 'y')
    decide
  · exact absurd rfl (h v)

theorem pinned_scalar (k : ScalarKind) : Pinned (.scalar k) := by
  intro u hu
  rcases u with k' | fields | v
  · have hnames : ∀ a b : ScalarKind, a.semanticName = b.semanticName → a = b := by
      intro a b
      cases a <;> cases b <;> decide
    rw [hnames k' k hu]
  · have hstruct : ∀ a : ScalarKind, bytes "struct" ≠ a.semanticName := by
      intro a
      cases a <;> decide
    exact absurd hu (hstruct k)
  · have hlast := semantic_list_getLast v
    rw [hu] at hlast
    exact absurd hlast (semantic_getLast_ne (by simp))

/-- A list of a determined type is determined; only a list of nulls shares its
semantic name, with the list that has no element type. -/
theorem Pinned.list {t : LogicalType} (h : Pinned t) (hne : t ≠ .scalar .null) :
    Pinned (.list (some t)) := by
  intro u hu
  have hlast := semantic_list_getLast (some t)
  rw [← hu] at hlast
  rcases u with k | fields | v
  · exact absurd hlast (semantic_getLast_ne (by simp))
  · exact absurd hlast (semantic_getLast_ne (by simp))
  · rw [variantSemanticType, variantSemanticType, append_cancel_right_eq] at hu
    rcases v with - | u
    · exact absurd (h (.scalar .null) hu).symm hne
    · rw [h u hu]

/-- **A merge keeps the semantic name or ends in a scalar**, below lists. -/
theorem semantic_of_merge {path : Bytes} {c : LogicalType} {r : MergedType}
    (h : mergeTypes key c t path = some r) :
    variantSemanticType r.1 = variantSemanticType c ∨
      Pinned r.1 ∧ r.1 ≠ .scalar .null := by
  have hlist : ∀ {r e : LogicalType}, variantSemanticType r = variantSemanticType e →
      variantSemanticType (.list (some r)) = variantSemanticType (.list (some e)) := by
    intro r e hsame
    rw [variantSemanticType, variantSemanticType]
    exact congrArg (· ++ bytes "_array") hsame
  revert h
  refine mergeTypes_rule (R := fun c _ _ r => variantSemanticType r.1 = variantSemanticType c ∨
      Pinned r.1 ∧ r.1 ≠ .scalar .null)
    ⟨?scalar, ?wrap, ?struct, ?enter, ?listNone, ?listSome⟩ t c path r
  case scalar =>
    intro b k m _ hm
    rcases mergeScalarKinds_cases hm with rfl | ⟨rfl, rfl, rfl⟩ | ⟨rfl, rfl, hne⟩
    · exact .inl rfl
    · exact .inr ⟨pinned_scalar _, by simp⟩
    · exact .inr ⟨pinned_scalar _, by simpa using hne⟩
  case wrap =>
    intro bs k _ r _ _
    exact .inl rfl
  case struct =>
    intro bs fs _ _
    exact .inl rfl
  case enter =>
    intro e t _ r _ ih
    rcases ih with hsame | ⟨hpinned, hne⟩
    · exact .inl (hlist hsame)
    · exact .inr ⟨hpinned.list hne, by simp⟩
  case listNone =>
    intro e _
    exact .inl rfl
  case listSome =>
    intro e t _ r ih
    rcases ih with hsame | ⟨hpinned, hne⟩
    · exact .inl (hlist hsame)
    · exact .inr ⟨hpinned.list hne, by simp⟩

/-! ### Normalizing without duplicates -/

variable {fields : List LogicalField} {f g : LogicalField}

/-- Two fields of one canonical name have one type, so that only one is emitted. -/
def Collapse (f g : LogicalField) : Prop :=
  (canonicalizeVersionedNameForType f).name = (canonicalizeVersionedNameForType g).name →
    g.type ≠ none ∧ f.type = g.type

/-- Emitting fields whose equal canonical names mean equal types repeats no name. -/
theorem foldl_emitField_nodup : ∀ {l out : List LogicalField}, (out.map FieldOf.name).Nodup →
    (∀ g ∈ out, ∀ f ∈ l, g.name = (canonicalizeVersionedNameForType f).name →
      f.type ≠ none ∧ g.type = f.type) →
    l.Pairwise Collapse → ((l.foldl emitField out).map FieldOf.name).Nodup
  | [], _, hout, _, _ => hout
  | f :: l, out, hout, hcross, hl => by
    rw [pairwise_cons] at hl
    rw [foldl_cons]
    by_cases hecho : Echoes out (canonicalizeVersionedNameForType f)
    · rw [emitField_of_echoes hecho]
      exact foldl_emitField_nodup hout
        (fun g hg x hx => hcross g hg x (mem_cons_of_mem f hx)) hl.2
    · rw [emitField_of_not_echoes hecho]
      -- a field of that name would have been echoed
      have hfresh : (canonicalizeVersionedNameForType f).name ∉ out.map FieldOf.name := by
        intro hmem
        obtain ⟨g, hg⟩ := Option.ne_none_iff_exists'.mp
          (mt newestNamed_eq_none_iff.mp (not_not.mpr hmem))
        obtain ⟨hgout, hgname⟩ := newestNamed_mem hg
        obtain ⟨htyped, htype⟩ := hcross g hgout f mem_cons_self hgname
        refine hecho ⟨g, hg, ?_, ?_⟩
        · rwa [canonicalize_type]
        · rwa [canonicalize_type]
      refine foldl_emitField_nodup ?_ ?_ hl.2
      · rw [map_append, nodup_append']
        refine ⟨hout, nodup_singleton _, ?_⟩
        rw [map_singleton, disjoint_singleton]
        exact hfresh
      · intro g hg x hx hname
        rcases mem_append.mp hg with hg | hg
        · exact hcross g hg x (mem_cons_of_mem f hx) hname
        · rw [mem_singleton] at hg
          subst hg
          rw [canonicalize_type]
          exact hl.1 x hx hname

theorem promoted_unversioned {i : Nat} (hf : fields[i]? = some f)
    (hint : f.type = some (.scalar .int64)) (hkeep : numericPosition fields f = some i) :
    parseVersionedFieldName f.name = none := by
  obtain ⟨-, hkeep⟩ := Option.ite_none_right_eq_some.mp hkeep
  obtain ⟨hi, rfl⟩ := List.getElem?_eq_some_iff.mp hf
  rcases Option.or_eq_some_iff.mp hkeep with hunversioned | ⟨-, hfloat⟩
  · obtain ⟨_, hp, _⟩ := findIdx?_eq_some_iff_getElem.mp hunversioned
    simp only [Bool.and_eq_true, beq_iff_eq] at hp
    exact variantFamilyBase_eq_self_iff.mp hp.1.2
  · obtain ⟨_, hp, _⟩ := findIdx?_eq_some_iff_getElem.mp hfloat
    simp [isScalarFloatType, hint] at hp

theorem versioned_of_canonical_eq (hne : f.name ≠ g.name)
    (h : (canonicalizeVersionedNameForType f).name = (canonicalizeVersionedNameForType g).name) :
    baseAndVersion f.name = baseAndVersion g.name ∧ baseAndVersion f.name ≠ none := by
  have hbv : baseAndVersion f.name = baseAndVersion g.name := by
    rw [← baseAndVersion_canonicalize f, h, baseAndVersion_canonicalize]
  refine ⟨hbv, ?_⟩
  intro hnone
  have hf : parseVersionedFieldName f.name = none := Option.map_eq_none_iff.mp hnone
  have hg : parseVersionedFieldName g.name = none := Option.map_eq_none_iff.mp (hbv ▸ hnone)
  rw [canonicalize_of_unversioned hf, canonicalize_of_unversioned hg] at h
  exact hne h

/-- **Normalizing a level keeps its names distinct**, if different fields of one canonical
name collapse. -/
theorem normalizeLevel_nodup (hnodup : (fields.map FieldOf.name).Nodup)
    (h : ∀ f ∈ fields, ∀ g ∈ fields, f.name ≠ g.name → Collapse f g) :
    ((normalizeLevel fields).map FieldOf.name).Nodup := by
  refine foldl_emitField_nodup nodup_nil (by simp) ?_
  have hpairs : fields.zipIdx.Pairwise fun p q => p.1.name ≠ q.1.name := by
    have hnames : (fields.zipIdx.map Prod.fst).Pairwise fun f g => f.name ≠ g.name := by
      rw [zipIdx_map_fst]
      exact pairwise_map.mp hnodup
    exact (pairwise_map (R := fun f g : LogicalField => f.name ≠ g.name)).mp hnames
  rw [survivors, pairwise_filterMap]
  refine hpairs.imp_of_mem ?_
  rintro ⟨f, i⟩ ⟨g, j⟩ hf hg hne f' hf' g' hg' hcanonical
  have hfi := mk_mem_zipIdx_iff_getElem?.mp hf
  have hgj := mk_mem_zipIdx_iff_getElem?.mp hg
  obtain ⟨hfname, -⟩ := keepNumeric_keeps hf'
  obtain ⟨hgname, -⟩ := keepNumeric_keeps hg'
  obtain ⟨hbv, hversioned⟩ :=
    versioned_of_canonical_eq (by rw [hfname, hgname]; exact hne) hcanonical
  -- versioned fields pass the numeric pass unchanged
  have hsame : ∀ {k : Nat} {x x' : LogicalField}, fields[k]? = some x →
      keepNumeric fields k x = some x' → baseAndVersion x.name ≠ none → x' = x := by
    intro k x x' hx hkeep hv
    rcases keepNumeric_cases hkeep with ⟨rfl, -⟩ | ⟨hint, -, hposition⟩
    · rfl
    · exact absurd (by rw [baseAndVersion, promoted_unversioned hx hint hposition]; rfl) hv
  obtain rfl := hsame hfi hf' (hfname ▸ hversioned)
  obtain rfl := hsame hgj hg' (hgname ▸ hbv ▸ hversioned)
  exact h _ (mem_of_getElem? hfi) _ (mem_of_getElem? hgj) hne hcanonical

/-! ### Stable levels -/

/-- A versioned field has the suffix of its type, or a type that its semantic name
determines. -/
def Suffixed (f : LogicalField) : Prop :=
  ∀ p, parseVersionedFieldName f.name = some p →
    ∃ t, f.type = some t ∧ (p.semanticType = variantSemanticType t ∨ Pinned t)

/-- **A stable level**: distinct names, and suffixes that can change only to one and the
same type. -/
structure StableLevel (fields : List LogicalField) : Prop where
  nodup : (fields.map FieldOf.name).Nodup
  suffixed : ∀ f ∈ fields, Suffixed f

/-- Every struct level is stable. -/
def StableNode : LogicalType → Prop
  | .struct fields => StableLevel fields
  | _ => True

/-- Every level of the schema is stable. -/
def LogicalSchema.Stable (schema : LogicalSchema) : Prop :=
  (LogicalType.struct schema.fields).Forall StableNode

theorem suffixed_of_unversioned (h : parseVersionedFieldName f.name = none) : Suffixed f := by
  intro p hp
  rw [h] at hp
  cases hp

theorem suffixed_of_pinned (ht : f.type = some t) (h : Pinned t) :
    Suffixed f := fun _ _ => ⟨t, ht, .inr h⟩

theorem suffixed_canonicalize (h : parseVersionedFieldName f.name ≠ none → f.type ≠ none) :
    Suffixed (canonicalizeVersionedNameForType f) := by
  rcases hq : parseVersionedFieldName f.name with - | q
  · rw [canonicalize_of_unversioned hq]
    exact suffixed_of_unversioned hq
  · obtain ⟨t, ht⟩ := Option.ne_none_iff_exists'.mp (h (by simp [hq]))
    intro p hp
    rw [parse_canonicalize hq ht] at hp
    cases hp
    exact ⟨t, by rw [canonicalize_type, ht], .inl rfl⟩

/-- Two fields of a stable level with one canonical name have one type. -/
theorem StableLevel.collapse (h : StableLevel fields) (hf : f ∈ fields) (hg : g ∈ fields)
    (hne : f.name ≠ g.name) : Collapse f g := by
  intro hcanonical
  obtain ⟨hbv, hversioned⟩ := versioned_of_canonical_eq hne hcanonical
  obtain ⟨p, hp⟩ := Option.ne_none_iff_exists'.mp (mt Option.map_eq_none_iff.mpr hversioned)
  obtain ⟨q, hq⟩ := Option.ne_none_iff_exists'.mp
    (mt Option.map_eq_none_iff.mpr (hbv ▸ hversioned))
  obtain ⟨t, ht, hpt⟩ := h.suffixed f hf p hp
  obtain ⟨u, hu, hqu⟩ := h.suffixed g hg q hq
  -- one canonical name: one semantic name
  have hsem : variantSemanticType t = variantSemanticType u := by
    have hparse := parse_canonicalize hp ht
    rw [hcanonical, parse_canonicalize hq hu] at hparse
    exact (congrArg VersionedFieldName.semanticType (Option.some.inj hparse)).symm
  have htu : t = u := by
    rcases hpt with hsuffix | hpinned
    · rcases hqu with hsuffix' | hpinned'
      · -- both suffixes are right, so neither name changes
        refine absurd ?_ hne
        have hkept : canonicalizeVersionedNameForType f = f := by
          simp [canonicalizeVersionedNameForType, hp, ht, hsuffix]
        have hkept' : canonicalizeVersionedNameForType g = g := by
          simp [canonicalizeVersionedNameForType, hq, hu, hsuffix']
        rwa [hkept, hkept'] at hcanonical
      · exact hpinned' t hsem
    · exact (hpinned u hsem.symm).symm
  rw [ht, hu, htu]
  exact ⟨by simp, rfl⟩

theorem normalizeLevel_stable (hnodup : ((normalizeLevel fields).map FieldOf.name).Nodup)
    (htyped : ∀ f ∈ fields, parseVersionedFieldName f.name ≠ none → f.type ≠ none) :
    StableLevel (normalizeLevel fields) where
  nodup := hnodup
  suffixed := by
    intro g hg
    obtain ⟨f, hf, rfl⟩ := mem_normalizeLevel hg
    obtain ⟨i, f₀, hi, hkeep⟩ := mem_survivors.mp hf
    apply suffixed_canonicalize
    intro hversioned
    rcases keepNumeric_cases hkeep with ⟨rfl, -⟩ | ⟨-, rfl, -⟩
    · exact htyped f (mem_of_getElem? hi) hversioned
    · simp

theorem StableLevel.typed (h : StableLevel fields) (hf : f ∈ fields)
    (hversioned : parseVersionedFieldName f.name ≠ none) : f.type ≠ none := by
  obtain ⟨p, hp⟩ := Option.ne_none_iff_exists'.mp hversioned
  obtain ⟨t, ht, -⟩ := h.suffixed f hf p hp
  simp [ht]

theorem StableLevel.mapType (h : StableLevel fields) {g : LogicalType → LogicalType}
    (hsem : ∀ t, variantSemanticType (g t) = variantSemanticType t) :
    StableLevel (fields.map (FieldOf.mapType g)) where
  nodup := by
    rw [map_map]
    exact h.nodup
  suffixed := by
    intro f' hf' p hp
    obtain ⟨f, hf, rfl⟩ := mem_map.mp hf'
    obtain ⟨t, ht, hpt⟩ := h.suffixed f hf p hp
    refine ⟨g t, by rw [mapType_type, ht]; rfl, ?_⟩
    rcases hpt with hsuffix | hpinned
    · exact .inl (hsuffix.trans (hsem t).symm)
    · rw [hpinned (g t) (hsem t)]
      exact .inr hpinned

/-! ### Normalizing and sorting keep types stable -/

/-- **Normalizing keeps every level stable.** -/
theorem normalize_stable :
    t.Forall StableNode → (normalizeIntegerFloatType t).Forall StableNode := by
  refine levelMap_normalize.all (fun _ => trivial) id (fun _ => trivial) fun fields hlevel => ?_
  have hmapped := StableLevel.mapType hlevel levelMap_normalize.semantic
  rw [normalizeIntegerFloatFields_eq]
  refine normalizeLevel_stable (normalizeLevel_nodup hmapped.nodup ?_) ?_
  · exact fun f hf g hg hne => hmapped.collapse hf hg hne
  · exact fun f hf => hmapped.typed hf

/-- **Sorting keeps every level stable.** -/
theorem alphabetize_stable : t.Forall StableNode → (alphabetize t).Forall StableNode := by
  refine levelMap_alphabetize.all (fun _ => trivial) id (fun _ => trivial) fun fields hlevel => ?_
  have hmapped := StableLevel.mapType hlevel levelMap_alphabetize.semantic
  have hperm := sortFields_perm hmapped.nodup
  refine ⟨(hperm.map FieldOf.name).nodup_iff.mpr hmapped.nodup, ?_⟩
  exact fun f hf => hmapped.suffixed f (hperm.mem_iff.mp hf)

theorem applyOrder_stable {order : FieldOrderPolicy} {schema : LogicalSchema} (h : schema.Stable) :
    (applyOrder order schema).Stable :=
  applyOrder_rule order h (alphabetize_stable h)

/-! ### Merging keeps types stable -/

variable {out : List LogicalField}

theorem StableLevel.set (h : StableLevel out) {i : Nat}
    (hg : out[i]? = some g) {v : Option LogicalType}
    (hv : Suffixed { g with type := v }) : StableLevel (out.set i { g with type := v }) where
  nodup := by
    have hnames : (out.set i { g with type := v }).map FieldOf.name = out.map FieldOf.name :=
      map_name_set hg rfl
    rw [hnames]
    exact h.nodup
  suffixed := by
    intro x hx
    rcases mem_or_eq_of_mem_set hx with hx | rfl
    · exact h.suffixed x hx
    · exact hv

theorem StableLevel.concat (h : StableLevel out)
    (hfresh : f.name ∉ out.map FieldOf.name) (hf : Suffixed f) : StableLevel (out ++ [f]) where
  nodup := by
    rw [map_append, nodup_append']
    exact ⟨h.nodup, nodup_singleton _, disjoint_singleton.mpr hfresh⟩
  suffixed := by
    intro x hx
    rcases mem_append.mp hx with hx | hx
    · exact h.suffixed x hx
    · rw [mem_singleton] at hx
      subst hx
      exact hf

/-- **One step keeps a level stable.** -/
theorem LevelStep.stable {path : Bytes} {r : MergedFields} (h : LevelStep key path f out r)
    (hf : Suffixed f) (hout : StableLevel out) : StableLevel r.1 := by
  cases h with
  | unchanged => exact hout
  | @evolved i g c t q ht hg hfam hc hr =>
    refine hout.set hg ?_
    intro p hp
    obtain ⟨c', hc', hpc⟩ := hout.suffixed g (mem_of_getElem? hg) p hp
    cases hc.symm.trans hc'
    refine ⟨q.1, rfl, ?_⟩
    rcases semantic_of_merge hr with hsame | ⟨hpinned, -⟩
    · rcases hpc with hsuffix | hpinned
      · exact .inl (hsuffix.trans hsame.symm)
      · rw [hpinned q.1 hsame]
        exact .inr hpinned
    · exact .inr hpinned
  | @filled i g hg hname hc =>
    refine hout.set hg (suffixed_of_unversioned ?_)
    -- an untyped field of a stable level is not versioned
    by_contra hversioned
    exact hout.typed (mem_of_getElem? hg) hversioned hc
  | added hfresh => exact hout.concat hfresh hf
  | @variant t previous ht hpresent hmember hfail =>
    obtain ⟨version, -, hname, hfresh⟩ := nextVariantName_spec out (familyBaseName f) t
    refine hout.concat hfresh ?_
    intro p hp
    refine ⟨t, ht, .inl ?_⟩
    rw [hname, parseVersionedFieldName_make_eq _ _ (isPrintedSuffix_semantic t),
      Option.ite_none_right_eq_some] at hp
    obtain ⟨-, hp⟩ := hp
    cases hp
    rfl

/-- **Stable levels are kept by merges of stable types.** -/
theorem stableInvariant (key : Bytes) : MergeInvariant key StableNode StableNode Suffixed where
  scalar := fun _ => trivial
  list := fun _ => trivial
  initial := fun _ h => h
  fits := fun _ hfs => StableLevel.suffixed hfs
  wrapper := fun k => suffixed_of_pinned rfl (pinned_scalar k)
  level := fun _ _ _ _ hstep hfits hout => hstep.stable hfits hout

/-! ### Incoming schemas -/

/-- Sibling names are pairwise distinct at every level. -/
def LogicalSchema.DistinctNames (schema : LogicalSchema) : Prop :=
  (LogicalType.struct schema.fields).Forall DistinctNode

instance : DecidablePred LogicalSchema.DistinctNames := fun schema =>
  inferInstanceAs (Decidable ((LogicalType.struct schema.fields).Forall DistinctNode))

/-- No version clash on one level: versioned fields are typed, and two of the same base and
number that have one semantic name have one type. -/
structure ClashFreeLevel (fields : List LogicalField) : Prop where
  typed : ∀ f ∈ fields, parseVersionedFieldName f.name ≠ none → f.type ≠ none
  agree : ∀ f ∈ fields, ∀ g ∈ fields, baseAndVersion f.name ≠ none →
    baseAndVersion f.name = baseAndVersion g.name →
    f.type.map variantSemanticType = g.type.map variantSemanticType → f.type = g.type

instance : DecidablePred ClashFreeLevel := fun fields =>
  decidable_of_iff
    ((∀ f ∈ fields, parseVersionedFieldName f.name ≠ none → f.type ≠ none) ∧
      ∀ f ∈ fields, ∀ g ∈ fields, baseAndVersion f.name ≠ none →
        baseAndVersion f.name = baseAndVersion g.name →
        f.type.map variantSemanticType = g.type.map variantSemanticType → f.type = g.type)
    ⟨fun h => ⟨h.1, h.2⟩, fun h => ⟨h.typed, h.agree⟩⟩

/-- No version clash at this node. -/
def ClashFreeNode : LogicalType → Prop
  | .struct fields => ClashFreeLevel fields
  | _ => True

instance : DecidablePred ClashFreeNode
  | .scalar _ => inferInstanceAs (Decidable True)
  | .struct fields => inferInstanceAs (Decidable (ClashFreeLevel fields))
  | .list _ => inferInstanceAs (Decidable True)

/-- No two siblings clash as versions, at any level. -/
def LogicalSchema.ClashFree (schema : LogicalSchema) : Prop :=
  (LogicalType.struct schema.fields).Forall ClashFreeNode

instance : DecidablePred LogicalSchema.ClashFree := fun schema =>
  inferInstanceAs (Decidable ((LogicalType.struct schema.fields).Forall ClashFreeNode))

/-- Different fields of one canonical name collapse, whatever their nested types are
normalized to. -/
theorem ClashFreeLevel.collapse (h : ClashFreeLevel fields) (hf : f ∈ fields) (hg : g ∈ fields)
    (hne : f.name ≠ g.name) :
    Collapse (f.mapType normalizeIntegerFloatType) (g.mapType normalizeIntegerFloatType) := by
  intro hcanonical
  obtain ⟨hbv, hversioned⟩ := versioned_of_canonical_eq (by exact hne) hcanonical
  obtain ⟨p, hp⟩ := Option.ne_none_iff_exists'.mp (mt Option.map_eq_none_iff.mpr hversioned)
  obtain ⟨q, hq⟩ := Option.ne_none_iff_exists'.mp
    (mt Option.map_eq_none_iff.mpr (hbv ▸ hversioned))
  obtain ⟨t, ht⟩ := Option.ne_none_iff_exists'.mp
    (h.typed f hf (by rw [show parseVersionedFieldName f.name = some p from hp]; simp))
  obtain ⟨u, hu⟩ := Option.ne_none_iff_exists'.mp
    (h.typed g hg (by rw [show parseVersionedFieldName g.name = some q from hq]; simp))
  have ht' : (f.mapType normalizeIntegerFloatType).type = some (normalizeIntegerFloatType t) := by
    rw [mapType_type, ht]
    rfl
  have hu' : (g.mapType normalizeIntegerFloatType).type = some (normalizeIntegerFloatType u) := by
    rw [mapType_type, hu]
    rfl
  have hsem : variantSemanticType t = variantSemanticType u := by
    have hparse := parse_canonicalize hp ht'
    rw [hcanonical, parse_canonicalize hq hu'] at hparse
    have hsuffix := congrArg VersionedFieldName.semanticType (Option.some.inj hparse)
    rw [levelMap_normalize.semantic, levelMap_normalize.semantic] at hsuffix
    exact hsuffix.symm
  have htype : f.type = g.type := by
    refine h.agree f hf g hg hversioned hbv ?_
    rw [ht, hu, Option.map_some, Option.map_some, hsem]
  rw [mapType_type, mapType_type, htype]
  exact ⟨by simp [hu], rfl⟩

/-- **Normalizing an incoming schema without clashes makes it stable.** -/
theorem normalize_clashFree (hdistinct : t.Forall DistinctNode) (h : t.Forall ClashFreeNode) :
    (normalizeIntegerFloatType t).Forall StableNode := by
  refine levelMap_normalize.all (P := fun t => DistinctNode t ∧ ClashFreeNode t) (fun _ => trivial)
    (fun _ => trivial) (fun _ => trivial) ?_ fun s hs => ⟨hdistinct s hs, h s hs⟩
  rintro fields ⟨hnodup, hlevel⟩
  have hlevel : ClashFreeLevel fields := hlevel
  rw [normalizeIntegerFloatFields_eq]
  refine normalizeLevel_stable (normalizeLevel_nodup ?_ ?_) ?_
  · rw [map_map]
    exact hnodup
  · intro f' hf' g' hg' hne
    obtain ⟨f, hf, rfl⟩ := mem_map.mp hf'
    obtain ⟨g, hg, rfl⟩ := mem_map.mp hg'
    exact hlevel.collapse hf hg hne
  · intro f' hf' hversioned
    obtain ⟨f, hf, rfl⟩ := mem_map.mp hf'
    rw [mapType_type, Ne, Option.map_eq_none_iff]
    exact hlevel.typed f hf hversioned

/-! ### Runs -/

theorem additiveMerge_stable {order : FieldOrderPolicy} {previous inferred : LogicalSchema}
    (hprevious : previous.Stable) (hdistinct : inferred.DistinctNames)
    (hclash : inferred.ClashFree) : (additiveMerge key order previous inferred).1.Stable := by
  have hinferred := normalize_clashFree hdistinct hclash
  unfold additiveMerge
  split
  · exact applyOrder_stable (normalize_stable hinferred)
  · exact applyOrder_stable (normalize_stable
      ((stableInvariant key).mergeFields [] hinferred (normalize_stable hprevious)))

/-- Inputs with distinct sibling names and no version clash. -/
def ClashFreeInput (_ : LogicalSchema) (input : SchemaRegistryMergeInput) : Prop :=
  input.inferredSchema.DistinctNames ∧ input.inferredSchema.ClashFree

/-- **Sibling names stay distinct over every run** of merges of schemas with distinct
sibling names and no version clash. -/
theorem reachable_distinctNames {schema : LogicalSchema} (h : ReachableBy ClashFreeInput schema) :
    schema.DistinctNames := by
  have hstable : schema.Stable := by
    refine ReachableBy.invariant ?_ ?_ h
    · exact forall_struct.mpr ⟨⟨nodup_nil, by simp⟩, by simp⟩
    · intro previous input hprevious hadmits _
      exact additiveMerge_stable hprevious hadmits.1 hadmits.2
  refine hstable.mono ?_
  intro t ht
  rcases t with k | fields | v
  · trivial
  · exact StableLevel.nodup ht
  · trivial

theorem reachable_distinctNames_sample :
    LogicalSchema.DistinctNames
      ⟨[sampleField "a_v2_integer" (.scalar .int64),
        sampleField "a_v2_struct" (sampleStruct ["x"])]⟩ := by
  refine reachable_distinctNames (Relation.ReflTransGen.single ⟨.ok [],
    sampleInput .schemaContractFirst
      [sampleField "a_v2_foo" (.scalar .int64), sampleField "a_v2_bar" (sampleStruct ["x"])],
    _, rfl, ⟨?_, ?_⟩, rfl, rfl⟩)
  · decide
  · decide

/-- **Two columns under one name.**  Both fields are structs and count as version two of `a`,
so the first merge publishes both as `a_v2_struct`. -/
theorem merge_duplicates_names :
    ∃ result,
      LogicalSchema.DistinctNames
        ⟨[sampleField "a_v2_struct" (sampleStruct ["x"]),
          sampleField "a_v2_foo" (sampleStruct ["y"])]⟩ ∧
      mergeSchemaRegistryWithPrevious (.ok [])
        (sampleInput .schemaContractFirst
          [sampleField "a_v2_struct" (sampleStruct ["x"]),
            sampleField "a_v2_foo" (sampleStruct ["y"])])
        (some ⟨[]⟩) = .ok result ∧
      result.schema.fields.map FieldOf.name = [bytes "a_v2_struct", bytes "a_v2_struct"] ∧
      ¬ result.schema.DistinctNames :=
  ⟨_, by decide, rfl, by decide, by decide⟩

end SchemaSanitizer
