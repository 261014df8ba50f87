/-
SchemaSanitizer/SchemaNames.lean

Field names of a whole schema (`sanitize_logical_schema_field_names`).  Every
struct is renamed level by level with `cleanSiblingFieldNames`; at the root the
reserved names of generated columns are put back.

A second pass changes nothing.  What the first one gives is settled: the default
key, or a clean name (`settled_assignedName`).  The only doubtful case is the
default key itself, which may be any text: it is kept, or it competes with the
clean name of a sibling for the same text, and then that text is clean.  Settled
names are their own bases and the names of one level are distinct, so the second
pass returns the bases without looking at suffixes
(`cleanSiblingFieldNames_of_settled`).
-/
import SchemaSanitizer.Distinct
import SchemaSanitizer.Inference
import SchemaSanitizer.Renaming

namespace SchemaSanitizer

open List

/-! ### The pass over a schema -/

/-- Fields under new names. -/
def withNames (names : List Bytes) (fields : List LogicalField) : List LogicalField :=
  List.zipWith (fun name f => { f with name }) names fields

mutual

/-- `sanitize_logical_type_names`. -/
def sanitizeLogicalTypeNames (opts : NameOptions) : LogicalType → LogicalType
  | .scalar k => .scalar k
  | .struct fields =>
    .struct (withNames (cleanSiblingFieldNames opts (fields.map FieldOf.name))
      (sanitizeFieldTypes opts fields))
  | .list value => .list (sanitizeValueNames opts value)

/-- The element of a list, if it has one. -/
def sanitizeValueNames (opts : NameOptions) : Option LogicalType → Option LogicalType
  | none => none
  | some t => some (sanitizeLogicalTypeNames opts t)

/-- A field, with the names in its type cleaned. -/
def sanitizeFieldType (opts : NameOptions) : LogicalField → LogicalField
  | ⟨name, value, nullable⟩ => ⟨name, sanitizeValueNames opts value, nullable⟩

/-- The fields of one level, with the names in their types cleaned. -/
def sanitizeFieldTypes (opts : NameOptions) : List LogicalField → List LogicalField
  | [] => []
  | f :: fs => sanitizeFieldType opts f :: sanitizeFieldTypes opts fs

end

/-- `sanitize_logical_fields`. -/
def sanitizeLogicalFields (opts : NameOptions) (fields : List LogicalField) : List LogicalField :=
  withNames (cleanSiblingFieldNames opts (fields.map FieldOf.name)) (sanitizeFieldTypes opts fields)

/-- `sanitize_logical_schema_field_names`: reserved names stay as they are. -/
def sanitizeLogicalSchemaFieldNames (opts : NameOptions) (schema : LogicalSchema) : LogicalSchema :=
  ⟨List.zipWith (fun raw f => if isReservedEtlColumnName raw.name then
    { f with name := raw.name } else f)
    schema.fields (sanitizeLogicalFields opts schema.fields)⟩

/-! ### Settled names -/

section Settled

variable {opts : NameOptions} {names : List Bytes}

/-- A name the rewriting keeps: the default key, or a clean name. -/
def SettledName (opts : NameOptions) (name : Bytes) : Prop :=
  name = opts.defaultKeyName ∨ CleanName opts.fieldNamePolicy name

theorem cleanFieldNameBase_of_settled {name : Bytes} (h : SettledName opts name) :
    cleanFieldNameBase opts name = name := by
  unfold cleanFieldNameBase
  split_ifs with hdefault
  · rfl
  · exact policyBase_of_clean (h.resolve_left hdefault)

theorem cleanFieldNameBase_clean {dirty : Bytes} (h : dirty ≠ opts.defaultKeyName) :
    CleanName opts.fieldNamePolicy (cleanFieldNameBase opts dirty) := by
  rw [cleanFieldNameBase, if_neg h]
  exact policyBase_clean _ _

theorem settled_base (dirty : Bytes) : SettledName opts (cleanFieldNameBase opts dirty) := by
  by_cases h : dirty = opts.defaultKeyName
  · rw [cleanFieldNameBase, if_pos h]
    exact .inl h
  · exact .inr (cleanFieldNameBase_clean h)

theorem chooseName_clean {dirty : Bytes} (used : List Bytes)
    (h : CleanName opts.fieldNamePolicy (cleanFieldNameBase opts dirty)) :
    CleanName opts.fieldNamePolicy (chooseName opts names used dirty) := by
  by_cases hused : firstCandidate opts names dirty ∈ used
  · obtain ⟨w, hname, hletters, -⟩ := chooseName_of_used hused
    rw [hname]
    exact h.append_letters hletters
  · rw [chooseName_of_unused hused]
    unfold firstCandidate
    dsimp only
    split_ifs
    · exact h.append_letters (hashSuffix_letters dirty _)
    · exact h

section

variable (hnodup : names.Nodup)

include hnodup

theorem clean_of_count {dirty : Bytes}
    (hcount : 1 < (names.map (cleanFieldNameBase opts)).count (cleanFieldNameBase opts dirty)) :
    CleanName opts.fieldNamePolicy (cleanFieldNameBase opts dirty) := by
  by_contra hclean
  -- then only the default key has this base
  have honly : ∀ e ∈ names, cleanFieldNameBase opts e = cleanFieldNameBase opts dirty →
      e = opts.defaultKeyName := by
    intro e _ he
    by_contra hne
    exact hclean (he ▸ cleanFieldNameBase_clean hne)
  have hle : (names.map (cleanFieldNameBase opts)).count (cleanFieldNameBase opts dirty) ≤
      names.count opts.defaultKeyName := by
    rw [count_eq_countP, countP_map, count_eq_countP]
    apply countP_mono_left
    intro e he hbase
    exact beq_iff_eq.mpr (honly e he (beq_iff_eq.mp hbase))
  have hone := nodup_iff_count_le_one.mp hnodup opts.defaultKeyName
  omega

/-- The name of one key is settled, as long as the default key comes before no
other name than clean ones. -/
theorem settled_chooseName {dirty : Bytes} {used : List Bytes}
    (hused : dirty = opts.defaultKeyName → ∀ u ∈ used, CleanName opts.fieldNamePolicy u) :
    SettledName opts (chooseName opts names used dirty) := by
  by_cases hclean : CleanName opts.fieldNamePolicy (cleanFieldNameBase opts dirty)
  · exact .inr (chooseName_clean used hclean)
  · have hdefault : dirty = opts.defaultKeyName := by
      by_contra hne
      exact hclean (cleanFieldNameBase_clean hne)
    have hfirst : firstCandidate opts names dirty = cleanFieldNameBase opts dirty := by
      unfold firstCandidate
      exact if_neg fun hcount => hclean (clean_of_count hnodup hcount)
    have hfree : firstCandidate opts names dirty ∉ used := fun hmem =>
      hclean (hfirst ▸ hused hdefault _ hmem)
    rw [chooseName_of_unused hfree, hfirst]
    exact settled_base dirty

/-- **Every assigned name is settled.** -/
theorem settled_assignedName {rest : List Bytes} :
    ∀ {used : List Bytes}, rest.Nodup →
    (opts.defaultKeyName ∈ rest → ∀ u ∈ used, CleanName opts.fieldNamePolicy u) →
    ∀ d ∈ rest, SettledName opts (assignedName opts names rest used d) := by
  induction rest with
  | nil => exact fun _ _ d hd => absurd hd not_mem_nil
  | cons first rest ih =>
    intro used hrest hused d hd
    obtain ⟨hfirst, hrest⟩ := nodup_cons.mp hrest
    by_cases heq : d = first
    · rw [heq, assignedName_head]
      apply settled_chooseName hnodup
      intro hdefault
      exact hused (hdefault ▸ mem_cons_self)
    · rw [assignedName_tail heq]
      refine ih hrest (fun hdefault u hu => ?_) d ((mem_cons.mp hd).resolve_left heq)
      -- the default key is still to come, so the first key is another one
      rcases mem_cons.mp hu with rfl | hu
      · exact chooseName_clean used (cleanFieldNameBase_clean fun h => hfirst (h ▸ hdefault))
      · exact hused (mem_cons_of_mem _ hdefault) u hu

theorem settled_siblingRenaming : ∀ d ∈ names, SettledName opts (siblingRenaming opts names d) := by
  intro d hd
  unfold siblingRenaming
  split_ifs
  · exact settled_base d
  · have hsorted := sortNames_perm names
    exact settled_assignedName hnodup (hsorted.nodup_iff.mpr hnodup)
      (fun _ u hu => absurd hu not_mem_nil) d (hsorted.mem_iff.mpr hd)

/-- **Distinct settled names are left alone.** -/
theorem cleanSiblingFieldNames_of_settled (h : ∀ n ∈ names, SettledName opts n) :
    cleanSiblingFieldNames opts names = names := by
  have hbases : names.map (cleanFieldNameBase opts) = names :=
    (map_congr_left fun n hn => cleanFieldNameBase_of_settled (h n hn)).trans (map_id _)
  unfold cleanSiblingFieldNames
  split_ifs with hp
  · rfl
  · dsimp only
    rw [hbases, hnodup.dedup, if_pos rfl]

/-- **Cleaning a level twice is cleaning it once.** -/
theorem cleanSiblingFieldNames_idem :
    cleanSiblingFieldNames opts (cleanSiblingFieldNames opts names) =
      cleanSiblingFieldNames opts names := by
  by_cases hp : opts.fieldNamePolicy = .preserve
  · have hid : ∀ l, cleanSiblingFieldNames opts l = l := fun l => by
      rw [cleanSiblingFieldNames, if_pos hp]
    rw [hid, hid]
  · apply cleanSiblingFieldNames_of_settled (cleanSiblingFieldNames_nodup hp hnodup)
    rw [cleanSiblingFieldNames_eq_map hp hnodup]
    intro n hn
    obtain ⟨d, hd, rfl⟩ := mem_map.mp hn
    exact settled_siblingRenaming hnodup d hd

end

end Settled

/-! ### The second pass -/

section SecondPass

variable {opts : NameOptions} {fields : List LogicalField}

theorem sanitizeFieldTypes_eq (opts : NameOptions) : ∀ fields : List LogicalField,
    sanitizeFieldTypes opts fields =
      fields.map (FieldOf.mapType (sanitizeLogicalTypeNames opts))
  | [] => rfl
  | ⟨name, value, nullable⟩ :: fields => by
    rw [sanitizeFieldTypes, sanitizeFieldTypes_eq opts fields]
    cases value <;> rfl

theorem withNames_names {names : List Bytes} (h : names.length = fields.length) :
    (withNames names fields).map FieldOf.name = names := by
  apply ext_getElem
  · simp [withNames, h]
  · intro i hi hi'
    simp [withNames]

theorem withNames_mapType (names : List Bytes) (g : LogicalType → LogicalType) :
    (withNames names fields).map (FieldOf.mapType g) =
      withNames names (fields.map (FieldOf.mapType g)) := by
  rw [withNames, withNames, map_zipWith, zipWith_map_right]
  rfl

theorem withNames_withNames {names : List Bytes} (h : names.length = fields.length) :
    withNames names (withNames names fields) = withNames names fields := by
  apply ext_getElem
  · simp [withNames, h]
  · intro i hi hi'
    simp [withNames]

theorem length_sanitizeFieldTypes : (sanitizeFieldTypes opts fields).length = fields.length := by
  rw [sanitizeFieldTypes_eq, length_map]

theorem sanitizeLogicalFields_names :
    (sanitizeLogicalFields opts fields).map FieldOf.name =
      cleanSiblingFieldNames opts (fields.map FieldOf.name) := by
  apply withNames_names
  rw [length_cleanSiblingFieldNames, length_sanitizeFieldTypes, length_map]

/-- Sanitized fields are sanitized already. -/
theorem sanitizeLogicalFields_idem (hnodup : (fields.map FieldOf.name).Nodup)
    (ih : ∀ f ∈ fields, ∀ t, f.type = some t →
      sanitizeLogicalTypeNames opts (sanitizeLogicalTypeNames opts t) =
        sanitizeLogicalTypeNames opts t) :
    sanitizeLogicalFields opts (sanitizeLogicalFields opts fields) =
      sanitizeLogicalFields opts fields := by
  have hnames : cleanSiblingFieldNames opts
      ((sanitizeLogicalFields opts fields).map FieldOf.name) =
      cleanSiblingFieldNames opts (fields.map FieldOf.name) := by
    rw [sanitizeLogicalFields_names, cleanSiblingFieldNames_idem hnodup]
  have htypes : (sanitizeFieldTypes opts fields).map
      (FieldOf.mapType (sanitizeLogicalTypeNames opts)) = sanitizeFieldTypes opts fields := by
    rw [sanitizeFieldTypes_eq, map_map]
    apply map_congr_left
    intro f hf
    obtain ⟨name, value, nullable⟩ := f
    cases value with
    | none => rfl
    | some t =>
      show (⟨name, some _, nullable⟩ : LogicalField) = ⟨name, some _, nullable⟩
      rw [ih _ hf t rfl]
  have hlength : (cleanSiblingFieldNames opts (fields.map FieldOf.name)).length =
      (sanitizeFieldTypes opts fields).length := by
    rw [length_cleanSiblingFieldNames, length_sanitizeFieldTypes, length_map]
  calc sanitizeLogicalFields opts (sanitizeLogicalFields opts fields)
      = withNames (cleanSiblingFieldNames opts (fields.map FieldOf.name))
          ((sanitizeLogicalFields opts fields).map
            (FieldOf.mapType (sanitizeLogicalTypeNames opts))) := by
        rw [sanitizeLogicalFields, hnames, sanitizeFieldTypes_eq]
    _ = withNames (cleanSiblingFieldNames opts (fields.map FieldOf.name))
          (sanitizeLogicalFields opts fields) := by
        rw [sanitizeLogicalFields, withNames_mapType, htypes]
    _ = sanitizeLogicalFields opts fields := withNames_withNames hlength

theorem sanitizeLogicalTypeNames_struct (fields : List LogicalField) :
    sanitizeLogicalTypeNames opts (.struct fields) = .struct (sanitizeLogicalFields opts fields) :=
  rfl

/-- **A type is left alone the second time**, level by level. -/
theorem sanitizeLogicalTypeNames_idem {t : LogicalType} (h : t.Forall DistinctNode) :
    sanitizeLogicalTypeNames opts (sanitizeLogicalTypeNames opts t) =
      sanitizeLogicalTypeNames opts t := by
  induction t with
  | scalar k => rfl
  | struct fields ih =>
    obtain ⟨hlevel, hnested⟩ := forall_struct.mp h
    rw [sanitizeLogicalTypeNames_struct, sanitizeLogicalTypeNames_struct,
      sanitizeLogicalFields_idem hlevel fun f hf t ht => ih f hf t ht (hnested f hf t ht)]
  | listNone => rfl
  | listSome t ih =>
    show LogicalType.list (some _) = LogicalType.list (some _)
    rw [ih (forall_listSome.mp h).2]

theorem restoreReserved_eq {raw : List LogicalField} (h : raw.length = fields.length)
    (hname : ∀ i (hi : i < raw.length) (hi' : i < fields.length),
      isReservedEtlColumnName raw[i].name = true → fields[i].name = raw[i].name) :
    zipWith (fun raw f =>
      if isReservedEtlColumnName raw.name then ({ f with name := raw.name } : LogicalField) else f)
      raw fields = fields := by
  apply ext_getElem
  · rw [length_zipWith, h, Nat.min_self]
  · intro i hi hi'
    rw [getElem_zipWith]
    split_ifs with hreserved
    · rw [← hname i (by omega) hi' hreserved]
    · rfl

end SecondPass

/-- **Schema name sanitization is idempotent**: for every policy and default key,
if sibling names are distinct at every level and no root name is reserved. -/
theorem sanitizeLogicalSchemaFieldNames_idem (opts : NameOptions) (schema : LogicalSchema)
    (hdistinct : schema.DistinctNames)
    (hreserved : ∀ f ∈ schema.fields, isReservedEtlColumnName f.name = false) :
    sanitizeLogicalSchemaFieldNames opts (sanitizeLogicalSchemaFieldNames opts schema) =
      sanitizeLogicalSchemaFieldNames opts schema := by
  obtain ⟨hlevel, hnested⟩ := forall_struct.mp hdistinct
  have hlength : ∀ fields, (sanitizeLogicalFields opts fields).length = fields.length := by
    intro fields
    have hnames := congrArg length (@sanitizeLogicalFields_names opts fields)
    rwa [length_map, length_cleanSiblingFieldNames, length_map] at hnames
  -- the first pass has nothing to put back
  have hfirst : sanitizeLogicalSchemaFieldNames opts schema =
      ⟨sanitizeLogicalFields opts schema.fields⟩ := by
    unfold sanitizeLogicalSchemaFieldNames
    rw [restoreReserved_eq (hlength _).symm]
    intro i hi hi' hr
    rw [hreserved _ (getElem_mem hi)] at hr
    cases hr
  -- and the second one puts back what is there
  have hidem := @sanitizeLogicalFields_idem opts _ hlevel fun f hf t ht =>
    sanitizeLogicalTypeNames_idem (hnested f hf t ht)
  rw [hfirst]
  unfold sanitizeLogicalSchemaFieldNames
  dsimp only
  rw [hidem, restoreReserved_eq rfl fun _ _ _ _ => rfl]

/-- Colliding names at two levels, next to a default key that is no clean name. -/
theorem sanitizeLogicalSchemaFieldNames_idem_sample :
    sanitizeLogicalSchemaFieldNames ⟨.lowerSnake, bytes "Default-Key"⟩
      (sanitizeLogicalSchemaFieldNames ⟨.lowerSnake, bytes "Default-Key"⟩
        ⟨[sampleField "a-b" (sampleStruct ["x", "X", "Default-Key"]),
          sampleField "a_b" (.scalar .int64)]⟩) =
      sanitizeLogicalSchemaFieldNames ⟨.lowerSnake, bytes "Default-Key"⟩
        ⟨[sampleField "a-b" (sampleStruct ["x", "X", "Default-Key"]),
          sampleField "a_b" (.scalar .int64)]⟩ :=
  sanitizeLogicalSchemaFieldNames_idem ⟨.lowerSnake, bytes "Default-Key"⟩ _ (by decide) (by decide)

end SchemaSanitizer
