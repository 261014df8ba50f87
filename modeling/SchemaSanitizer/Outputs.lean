/-
SchemaSanitizer/Outputs.lean

Does the column that a drift event names exist?

Events are recorded while the schemas are merged, and the normalizer runs afterwards.  It
renames a versioned column whose type was promoted, and it drops numeric columns of a
family with a float, so an event can name a column that is gone by the time the schema is
published (`merge_event_without_column`).

* `NamesColumn e t path`: the event names a column of `t`, at the level that its source path
  addresses when `t` itself is found at `path`.
* `mergeTypes_namesAll`: in the merged schema every event names a column, unless a
  generated name is not of the versioned form.
* `KeepsName order e t path`: the normalizer leaves, or gives, a column of `t` the name of the
  event.  `namesColumn_finish_iff` says that this decides about the published type.
-/
import SchemaSanitizer.Representation

namespace SchemaSanitizer

open Lib List

variable {fields : List LogicalField} {g : LogicalField} {order : FieldOrderPolicy}

/-! ### The columns of a finished level -/

/-- A numeric column in whose place the family keeps another one. -/
def Folded (fields : List LogicalField) (g : LogicalField) : Prop :=
  Pooled fields g ∧ ∀ i, numericPosition (normalizeNested fields) g = some i → fields[i]? ≠ some g

/-- The column a field becomes is published: levels that are sorted by name show only the first
column of a name. -/
def Shown (order : FieldOrderPolicy) (fields : List LogicalField) (g : LogicalField) : Prop :=
  order = .alphabetically → ∀ c, fieldNamed (normalizeIntegerFloatFields fields)
    (canonicalField g).name = some c → c.type = (canonicalField g).type

theorem exists_column {t : Traced} (ht : t ∈ tracedSurvivors fields) :
    ∃ c ∈ normalizeIntegerFloatFields fields,
      c.name = t.column.name ∧ c.type = t.column.type := by
  have hmem := (group_perm (fun t : Traced => t.column.name) (fun t => t.column.type)
    (tracedSurvivors fields)).mem_iff.mpr ht
  obtain ⟨g, hg, htg⟩ := mem_flatMap.mp hmem
  obtain ⟨hname, htype⟩ := group_uniform _ _ _ g hg t htg
  refine ⟨g.1.column, ?_, hname.symm, htype.symm⟩
  rw [← tracedColumns_erase, tracedColumns, map_map]
  exact mem_map.mpr ⟨g, hg, rfl⟩

/-- A column of a normalized level comes from a field that is not folded, and has its type
unless it is a number. -/
theorem exists_source {c : LogicalField} (hc : c ∈ normalizeIntegerFloatFields fields) :
    ∃ g ∈ fields, ¬ Folded fields g ∧ c.name = (canonicalField g).name ∧
      (c.type = (canonicalField g).type ∨ isScalarNumericType c = true) := by
  have hmem : c ∈ (tracedSurvivors fields).map Traced.column := by
    rw [tracedSurvivors_erase]
    exact foldl_emitField_sublist.subset hc
  obtain ⟨t, ht, rfl⟩ := mem_map.mp hmem
  obtain ⟨i, g, hg, htrace⟩ := mem_tracedSurvivors.mp ht
  refine ⟨g, mem_of_getElem? hg, ?_, survivor_name hg htrace, ?_⟩
  · rcases tracedSurvivor_cases hg htrace with ⟨hnot, -⟩ | ⟨-, hkeep, -⟩
    · exact fun hfolded => hnot hfolded.1
    · exact fun hfolded => hfolded.2 i hkeep hg
  · rcases tracedSurvivor_cases hg htrace with ⟨-, rfl⟩ | ⟨hpooled, -⟩
    · exact .inl rfl
    · obtain ⟨d, hd, rfl⟩ := Option.map_eq_some_iff.mp htrace
      right
      rw [isScalarNumericType_iff, canonicalize_type, ← isScalarNumericType_iff,
        (keepNumeric_keeps hd).2.2, normalizeNestedField_eq, numeric_nested]
      exact hpooled.1

/-- **A field that is not folded is a column**, under the name with the suffix of its type. -/
theorem name_kept (hg : g ∈ fields) (hkept : ¬ Folded fields g) :
    ∃ c ∈ normalizeIntegerFloatFields fields, c.name = (canonicalField g).name := by
  obtain ⟨t, ht, hgt⟩ := exists_survivor hg
  obtain ⟨c, hc, hname, -⟩ := exists_column ht
  refine ⟨c, hc, hname.trans ?_⟩
  by_cases hpooled : Pooled fields g
  · -- the family keeps the column at one position, and that is the field
    obtain ⟨i, hi, hig⟩ : ∃ i, numericPosition (normalizeNested fields) g = some i ∧
        fields[i]? = some g := by
      by_contra hnone
      push Not at hnone
      exact hkept ⟨hpooled, hnone⟩
    obtain ⟨j, h, hh, htrace⟩ := mem_tracedSurvivors.mp ht
    rw [survivor_name hh htrace]
    rcases tracedSurvivor_cases hh htrace with ⟨-, rfl⟩ | ⟨-, hj, hsources, -⟩
    · rw [mem_singleton.mp hgt]
    · rw [hsources] at hgt
      rw [numericPosition, (mem_pool.mp hgt).2.1] at hi
      obtain rfl : i = j := Option.some.inj (hi.symm.trans hj)
      rw [Option.some.inj (hh.symm.trans hig)]
  · rw [survivor_of_not_pooled hpooled ht hgt]

theorem column_kept (hg : g ∈ fields) (hnum : isScalarNumericType g ≠ true) :
    ∃ c ∈ normalizeIntegerFloatFields fields,
      c.name = (canonicalField g).name ∧ c.type = (canonicalField g).type := by
  obtain ⟨t, ht, hgt⟩ := exists_survivor hg
  obtain ⟨c, hc, hname, htype⟩ := exists_column ht
  rw [survivor_of_not_pooled (fun h => hnum h.1) ht hgt] at hname htype
  exact ⟨c, hc, hname, htype⟩

/-- What is done to a normalized type before it is published. -/
def publishType : FieldOrderPolicy → LogicalType → LogicalType
  | .alphabetically, t => alphabetize t
  | .schemaContractFirst, t => t

theorem finish_eq (order : FieldOrderPolicy) (t : LogicalType) :
    finish order t = publishType order (normalizeIntegerFloatType t) := by
  cases order with
  | alphabetically => rfl
  | schemaContractFirst => rfl

/-- The columns of a published level: all of them, or the first of each name. -/
theorem exists_published (order : FieldOrderPolicy) (fields : List LogicalField) :
    ∃ columns, publishType order (.struct fields) = .struct columns ∧
      ∀ c, c ∈ columns ↔ ∃ d ∈ fields,
        (order = .alphabetically → fieldNamed fields d.name = some d) ∧
          d.mapType (publishType order) = c := by
  cases order with
  | schemaContractFirst =>
    refine ⟨fields, rfl, fun c => ?_⟩
    have hid : ∀ d : LogicalField, d.mapType (publishType .schemaContractFirst) = d :=
      fun d => mapType_eq_self fun _ _ => rfl
    simp [hid]
  | alphabetically =>
    refine ⟨_, alphabetize_struct fields, fun c => ?_⟩
    rw [sortFields, map_map, mem_filterMap]
    constructor
    · rintro ⟨name, -, hname⟩
      rw [fieldNamed_map] at hname
      obtain ⟨d, hd, rfl⟩ := Option.map_eq_some_iff.mp hname
      obtain ⟨hmem, rfl⟩ := mem_fieldNamed hd
      exact ⟨d, hmem, fun _ => hd, rfl⟩
    · rintro ⟨d, hd, hfirst, rfl⟩
      refine ⟨d.name, (sortNames_perm _).mem_iff.mpr (mem_map_of_mem hd), ?_⟩
      rw [fieldNamed_map, hfirst rfl]
      rfl

/-! ### Events and the columns they name -/

/-- **The event names a column of the type found at `path`**, at the level its source path
addresses: the last segment of the path is the source of the column, or, for the events of
an empty registry, its name. -/
inductive NamesColumn (e : DriftEvent) : LogicalType → Bytes → Prop
  | here {fields : List LogicalField} {path : Bytes} {g : LogicalField} (hg : g ∈ fields)
      (hname : g.name = e.outputName)
      (hpath : e.sourcePath = joinPath path (sourceSegmentForOutput g.name) ∨
        e.sourcePath = joinPath path g.name) : NamesColumn e (.struct fields) path
  | nested {fields : List LogicalField} {path : Bytes} {g : LogicalField} {t : LogicalType}
      (hg : g ∈ fields) (ht : g.type = some t)
      (h : NamesColumn e t (joinPath path (sourceSegmentForOutput g.name))) :
      NamesColumn e (.struct fields) path
  | element {t : LogicalType} {path : Bytes} (h : NamesColumn e t (path ++ bytes "[]")) :
      NamesColumn e (.list (some t)) path

/-- **Some column keeps, or gets, the name of the event**, in a type that is still to be
finished: a column at the level of the event that is not folded into another one, whose name
with the suffix of its type is the output name.  On the way to this level every column is
shown. -/
inductive KeepsName (order : FieldOrderPolicy) (e : DriftEvent) : LogicalType → Bytes → Prop
  | here {fields : List LogicalField} {path : Bytes} {g : LogicalField} (hg : g ∈ fields)
      (hkept : ¬ Folded fields g) (hname : (canonicalField g).name = e.outputName)
      (hpath : e.sourcePath = joinPath path (familyBaseName g) ∨
        e.sourcePath = joinPath path e.outputName) : KeepsName order e (.struct fields) path
  | nested {fields : List LogicalField} {path : Bytes} {g : LogicalField} {t : LogicalType}
      (hg : g ∈ fields) (ht : g.type = some t) (hshown : Shown order fields g)
      (h : KeepsName order e t (joinPath path (familyBaseName g))) :
      KeepsName order e (.struct fields) path
  | element {t : LogicalType} {path : Bytes} (h : KeepsName order e t (path ++ bytes "[]")) :
      KeepsName order e (.list (some t)) path

variable {e : DriftEvent} {path : Bytes} {t : LogicalType}

theorem NamesColumn.ne_scalar (h : NamesColumn e t path) (k : ScalarKind) : t ≠ .scalar k := by
  cases h <;> simp

theorem KeepsName.ne_scalar (h : KeepsName order e t path) (k : ScalarKind) : t ≠ .scalar k := by
  cases h <;> simp

theorem segment_canonicalField (g : LogicalField) :
    sourceSegmentForOutput (canonicalField g).name = familyBaseName g :=
  familyBaseName_finishField g

theorem canonicalField_type (g : LogicalField) :
    (canonicalField g).type = g.type.map normalizeIntegerFloatType :=
  finishField_type g

/-- The first column of a name is shown, and it has this name. -/
theorem exists_first (order : FieldOrderPolicy) (hg : g ∈ fields) :
    ∃ d ∈ fields, d.name = g.name ∧
      (order = .alphabetically → fieldNamed fields d.name = some d) ∧
      (order = .schemaContractFirst → d = g) := by
  cases order with
  | schemaContractFirst => exact ⟨g, hg, rfl, (nomatch ·), fun _ => rfl⟩
  | alphabetically =>
    obtain ⟨d, hd⟩ := fieldNamed_isSome (mem_map_of_mem hg)
    obtain ⟨hmem, hname⟩ := mem_fieldNamed hd
    exact ⟨d, hmem, hname, fun _ => hname ▸ hd, (nomatch ·)⟩

section Level

variable {columns : List LogicalField}
  (hcolumns : ∀ c, c ∈ columns ↔ ∃ d ∈ normalizeIntegerFloatFields fields,
    (order = .alphabetically → fieldNamed (normalizeIntegerFloatFields fields) d.name = some d) ∧
      d.mapType (publishType order) = c)
  (ih : ∀ g ∈ fields, ∀ t, g.type = some t → ∀ path,
    NamesColumn e (publishType order (normalizeIntegerFloatType t)) path ↔ KeepsName order e t path)

include hcolumns ih

/-- A column that is named is a field whose name is kept. -/
theorem keepsName_of_level (h : NamesColumn e (.struct columns) path) :
    KeepsName order e (.struct fields) path := by
  cases h with
  | here hc hname hpath =>
    obtain ⟨d, hd, -, rfl⟩ := (hcolumns _).mp hc
    obtain ⟨g, hg, hkept, hdname, -⟩ := exists_source hd
    rw [mapType_name, hdname] at hname hpath
    rw [segment_canonicalField, hname] at hpath
    exact .here hg hkept hname hpath
  | @nested _ _ _ u hc ht h =>
    obtain ⟨d, hd, hfirst, rfl⟩ := (hcolumns _).mp hc
    obtain ⟨g, hg, -, hname, htype⟩ := exists_source hd
    obtain ⟨v, hv, rfl⟩ := Option.map_eq_some_iff.mp ht
    -- nothing is below a number
    have htype := htype.resolve_right fun hnum => by
      obtain ⟨k, hk⟩ := scalar_of_isScalarNumericType hnum
      cases hv.symm.trans hk
      exact h.ne_scalar k (by cases order <;> rfl)
    rw [hv, canonicalField_type] at htype
    obtain ⟨t, hgt, rfl⟩ := Option.map_eq_some_iff.mp htype.symm
    rw [mapType_name, hname, segment_canonicalField] at h
    refine .nested hg hgt ?_ ((ih g hg t hgt _).mp h)
    intro horder c hc
    rw [← hname, hfirst horder] at hc
    cases hc
    rw [hv, canonicalField_type, hgt]
    rfl

/-- A field whose name is kept becomes a column of that name. -/
theorem KeepsName.level (h : KeepsName order e (.struct fields) path) :
    NamesColumn e (.struct columns) path := by
  cases h with
  | @here _ _ g hg hkept hname hpath =>
    obtain ⟨c, hc, hcname⟩ := name_kept hg hkept
    obtain ⟨d, hd, hdname, hfirst, -⟩ := exists_first order hc
    have hdname : d.name = (canonicalField g).name := hdname.trans hcname
    refine .here ((hcolumns _).mpr ⟨d, hd, hfirst, rfl⟩) (hdname.trans hname) ?_
    rw [mapType_name, hdname, segment_canonicalField, hname]
    exact hpath
  | @nested _ _ g t hg ht hshown h =>
    have hnum : isScalarNumericType g ≠ true := fun hnum => by
      obtain ⟨k, hk⟩ := scalar_of_isScalarNumericType hnum
      cases ht.symm.trans hk
      exact h.ne_scalar k rfl
    obtain ⟨c, hc, hcname, hctype⟩ := column_kept hg hnum
    obtain ⟨d, hd, hdname, hfirst, hself⟩ := exists_first order hc
    have hdname : d.name = (canonicalField g).name := hdname.trans hcname
    have hdtype : d.type = (canonicalField g).type := by
      cases order with
      | schemaContractFirst => rw [hself rfl, hctype]
      | alphabetically => exact hshown rfl d (hdname ▸ hfirst rfl)
    refine .nested ((hcolumns _).mpr ⟨d, hd, hfirst, rfl⟩)
      (t := publishType order (normalizeIntegerFloatType t)) ?_ ?_
    · rw [mapType_type, hdtype, canonicalField_type, ht]
      rfl
    · rw [mapType_name, hdname, segment_canonicalField]
      exact (ih g hg t ht _).mpr h

end Level

/-- **The finished type shows what keeps its name, and nothing else.** -/
theorem namesColumn_finish_iff (t : LogicalType) :
    ∀ path, NamesColumn e (finish order t) path ↔ KeepsName order e t path := by
  simp only [finish_eq]
  induction t with
  | scalar k =>
    intro path
    have hscalar : publishType order (normalizeIntegerFloatType (.scalar k)) = .scalar k := by
      cases order <;> rfl
    rw [hscalar]
    exact ⟨fun h => absurd rfl (h.ne_scalar k), fun h => absurd rfl (h.ne_scalar k)⟩
  | listNone =>
    intro path
    have hlist : publishType order (normalizeIntegerFloatType (.list none)) = .list none := by
      cases order <;> rfl
    rw [hlist]
    exact ⟨(nomatch ·), (nomatch ·)⟩
  | listSome t ih =>
    intro path
    have hlist : publishType order (normalizeIntegerFloatType (.list (some t)))
        = .list (some (publishType order (normalizeIntegerFloatType t))) := by
      rw [normalizeIntegerFloatType_list]
      cases order with
      | alphabetically => exact alphabetize_list _
      | schemaContractFirst => rfl
    rw [hlist]
    constructor
    · intro h
      cases h with
      | element h => exact .element ((ih _).mp h)
    · intro h
      cases h with
      | element h => exact .element ((ih _).mpr h)
  | struct fields ih =>
    intro path
    obtain ⟨columns, hcolumns, hmem⟩ :=
      exists_published order (normalizeIntegerFloatFields fields)
    rw [show normalizeIntegerFloatType (.struct fields)
      = .struct (normalizeIntegerFloatFields fields) from rfl, hcolumns]
    exact ⟨keepsName_of_level hmem ih, KeepsName.level hmem ih⟩

/-! ### The merged schema -/

/-- An event about a generated version whose name is not one of the family it was generated
for: the family has no name, or its numbers have run out. -/
def Stray (e : DriftEvent) : Prop :=
  e.driftType = .newVersionGenerated ∧
    ∃ path base, e.sourcePath = joinPath path base ∧ sourceSegmentForOutput e.outputName ≠ base

/-- Whatever names a column of the first type names one of the second. -/
def KeepsNamed (before after : LogicalType) : Prop :=
  ∀ e path, NamesColumn e before path → NamesColumn e after path

/-- A merged type: no column has lost its name, and the events name columns. -/
structure NamesAll (before : LogicalType) (path : Bytes) (r : MergedType) : Prop where
  keeps : KeepsNamed before r.1
  events : ∀ e ∈ r.2, Stray e ∨ NamesColumn e r.1 path

section Merged

variable {key : Bytes} {out : List LogicalField} {f : LogicalField} {r : MergedFields}

theorem keepsNamed_append (more : List LogicalField) :
    KeepsNamed (.struct out) (.struct (out ++ more)) := by
  intro e path h
  cases h with
  | here hg hname hpath => exact .here (mem_append_left _ hg) hname hpath
  | nested hg ht h => exact .nested (mem_append_left _ hg) ht h

/-- A field may take a type in which its columns keep their names. -/
theorem keepsNamed_set {i : Nat} {u : LogicalType} (hg : out[i]? = some g)
    (hu : ∀ c, g.type = some c → KeepsNamed c u) :
    KeepsNamed (.struct out) (.struct (out.set i { g with type := some u })) := by
  obtain ⟨hi, -⟩ := List.getElem?_eq_some_iff.mp hg
  have hnew : ({ g with type := some u } : LogicalField) ∈ out.set i { g with type := some u } :=
    mem_of_getElem? (getElem?_set_self hi)
  -- a column is the one that was set, or is still there
  have hcolumn : ∀ x ∈ out, x = g ∨ x ∈ out.set i { g with type := some u } := by
    intro x hx
    obtain ⟨j, hj⟩ := getElem?_of_mem hx
    by_cases hij : i = j
    · subst hij
      exact .inl (Option.some.inj (hj.symm.trans hg))
    · exact .inr (mem_of_getElem? ((getElem?_set_ne hij).trans hj))
  intro e path h
  cases h with
  | here hx hname hpath =>
    rcases hcolumn _ hx with rfl | hx
    · exact .here hnew hname hpath
    · exact .here hx hname hpath
  | nested hx ht h =>
    rcases hcolumn _ hx with rfl | hx
    · exact .nested hnew rfl (hu _ ht _ _ h)
    · exact .nested hx ht h

theorem mem_promotionDrifts {name : Bytes} {c u : LogicalType} {drifts : List DriftEvent}
    (h : e ∈ promotionDrifts path name c u drifts) :
    e ∈ drifts ∨ (e.sourcePath = path ∧ e.outputName = name) := by
  unfold promotionDrifts at h
  split at h
  · rw [mem_singleton.mp h]
    exact .inr ⟨rfl, rfl⟩
  · exact .inl h

/-- The events of a column that has taken a type, at the level of this column. -/
theorem promoted_named {i : Nat} {c : LogicalType} {q : MergedType} {below : Bytes}
    (hg : out[i]? = some g) (hbelow : below = joinPath path (sourceSegmentForOutput g.name))
    (hq : NamesAll c below q) : ∀ e ∈ promotionDrifts below g.name c q.1 q.2,
    Stray e ∨ NamesColumn e (.struct (out.set i { g with type := some q.1 })) path := by
  obtain ⟨hi, -⟩ := List.getElem?_eq_some_iff.mp hg
  have hnew : ({ g with type := some q.1 } : LogicalField)
      ∈ out.set i { g with type := some q.1 } := mem_of_getElem? (getElem?_set_self hi)
  intro e he
  rcases mem_promotionDrifts he with he | ⟨hpath, hname⟩
  · exact (hq.events e he).imp_right fun h => .nested hnew rfl (hbelow ▸ h)
  · exact .inr (.here hnew hname.symm (.inl (hpath.trans hbelow)))

/-- **One turn of the loop names columns.** -/
theorem IncomingStep.namesAll (h : IncomingStep key (joinPath path (familyBaseName f)) f out r)
    (ih : ∀ t, f.type = some t → ∀ c p q, mergeTypes key c t p = some q → NamesAll c p q) :
    NamesAll (.struct out) path (.struct r.1, r.2) := by
  -- a member of the family that takes the type
  have htakes : ∀ {i : Nat} {g : LogicalField} {c t : LogicalType} {q : MergedType},
      f.type = some t → out[i]? = some g → familyBaseName g = familyBaseName f →
      g.type = some c → mergeTypes key c t (joinPath path (familyBaseName f)) = some q →
      NamesAll (.struct out) path (.struct (out.set i { g with type := some q.1 }),
        promotionDrifts (joinPath path (familyBaseName f)) g.name c q.1 q.2) := by
    intro i g c t q ht hg hfam hc hr
    have hq := ih t ht c _ q hr
    refine ⟨keepsNamed_set hg ?_, promoted_named hg (by rw [← hfam]; rfl) hq⟩
    intro c' hc'
    cases hc.symm.trans hc'
    exact hq.keeps
  cases h with
  | untyped | reused => exact ⟨fun _ _ h => h, by simp⟩
  | own ht hg hname hc hr =>
    exact htakes ht hg (by rw [familyBaseName, hname, familyBaseName]) hc hr
  | newest ht _ hg hfam _ hc hr => exact htakes ht hg hfam hc hr
  | added =>
    refine ⟨keepsNamed_append _, fun e he => ?_⟩
    rw [mem_singleton.mp he]
    exact .inr (.here (mem_append_right _ mem_cons_self) rfl (.inl rfl))
  | @variant t =>
    refine ⟨keepsNamed_append _, fun e he => ?_⟩
    rw [mem_singleton.mp he]
    by_cases hbase : sourceSegmentForOutput (nextVariantName out (familyBaseName f) t)
        = familyBaseName f
    · refine .inr (.here (mem_append_right _ mem_cons_self) rfl (.inl ?_))
      rw [hbase]
    · exact .inl ⟨rfl, path, familyBaseName f, rfl, hbase⟩

/-- **A level names columns**: later turns keep what an event names. -/
theorem mergeFields_namesAll (path : Bytes) : ∀ {fs out : List LogicalField},
    (∀ f ∈ fs, ∀ t, f.type = some t → ∀ c p q, mergeTypes key c t p = some q → NamesAll c p q) →
    NamesAll (.struct out) path
      (.struct (mergeFields key out fs path).1, (mergeFields key out fs path).2)
  | [], out, _ => ⟨fun _ _ h => h, by simp [mergeFields]⟩
  | f :: fs, out, ih => by
    have hturn := (mergeField_cases key out f path).namesAll (ih f mem_cons_self)
    have hrest : NamesAll (.struct (mergeField key out f path).1) path _ :=
      mergeFields_namesAll path fun g hg => ih g (mem_cons_of_mem f hg)
    refine ⟨fun e p h => hrest.keeps e p (hturn.keeps e p h), fun e he => ?_⟩
    rcases mem_append.mp he with he | he
    · exact (hturn.events e he).imp_right (hrest.keeps e path)
    · exact hrest.events e he

/-- The events of a wrapped scalar name columns. -/
theorem wrapScalar_namesAll {k : ScalarKind} {bs : List LogicalField}
    (hkey : parseVersionedFieldName key = none)
    (h : wrapScalar key k bs (joinPath path key) = some r)
    (ih : ∀ g ∈ bs, ∀ c, g.type = some c → ∀ q,
      mergeScalarInto key k c (joinPath path key) = some q → NamesAll c (joinPath path key) q) :
    NamesAll (.struct bs) path (.struct r.1, r.2) := by
  rcases wrapScalar_cases h with ⟨-, rfl⟩ | ⟨i, g, hg, -, hnone, rfl⟩ | ⟨i, g, c, q, hg, hname,
    hc, hq, rfl⟩
  · refine ⟨keepsNamed_append _, fun e he => ?_⟩
    rw [mem_singleton.mp he]
    exact .inr (.here (mem_append_right _ mem_cons_self) rfl (.inr rfl))
  · refine ⟨keepsNamed_set hg fun c hc => ?_, by simp⟩
    cases hnone.symm.trans hc
  · have hall := ih g (mem_of_getElem? hg) c hc q hq
    refine ⟨keepsNamed_set hg fun c' hc' => ?_, promoted_named hg ?_ hall⟩
    · cases hc.symm.trans hc'
      exact hall.keeps
    · rw [hname, sourceSegmentForOutput, variantFamilyBase_of_none hkey]

/-- **In the merged schema the events name columns**, stray ones apart. -/
theorem mergeTypes_namesAll (hkey : parseVersionedFieldName (wrapperKey key) = none)
    (t : LogicalType) :
    ∀ base path r, mergeTypes key base t path = some r → NamesAll base path r := by
  refine mergeTypes_rule (R := fun base _ path r => NamesAll base path r)
    ⟨?scalar, ?wrap, ?struct, ?enter, ?listNone, ?listSome⟩ t
  case scalar => exact fun b k m path _ => ⟨fun e p h => absurd rfl (h.ne_scalar b), by simp⟩
  case wrap =>
    intro bs k path r hwrap ih
    refine wrapScalar_namesAll hkey hwrap ?_
    intro g hg c hc q hq
    exact ih g hg c hc _ q (by rw [mergeTypes_scalar]; exact hq)
  case struct => exact fun bs fs path ih => mergeFields_namesAll path ih
  case enter =>
    intro e t path r _ ih
    refine ⟨fun d p h => ?_, fun d hd => (ih.events d hd).imp_right .element⟩
    cases h with
    | element h => exact .element (ih.keeps d _ h)
  case listNone => exact fun e path => ⟨fun d p h => h, by simp⟩
  case listSome =>
    intro e t path r ih
    refine ⟨fun d p h => ?_, fun d hd => (ih.events d hd).imp_right .element⟩
    cases h with
    | element h => exact .element (ih.keeps d _ h)

end Merged

/-! ### Registry merges -/

/-- The schema and the events of an additive merge before the normalizer runs. -/
def mergedFields (input : SchemaRegistryMergeInput) (previous : LogicalSchema) : MergedFields :=
  mergeFields input.defaultKeyName (normalizeIntegerFloatSchema previous).fields
    (normalizeIntegerFloatSchema input.inferredSchema).fields []

theorem firstSeen_namesColumn {f : LogicalField} (hf : f ∈ normalizeIntegerFloatFields fields) :
    NamesColumn (firstSeen f) (finish order (.struct fields)) [] := by
  obtain ⟨columns, hcolumns, hmem⟩ := exists_published order (normalizeIntegerFloatFields fields)
  obtain ⟨d, hd, hname, hfirst, -⟩ := exists_first order hf
  rw [finish_eq, show normalizeIntegerFloatType (.struct fields)
    = .struct (normalizeIntegerFloatFields fields) from rfl, hcolumns]
  refine .here ((hmem _).mpr ⟨d, hd, hfirst, rfl⟩) hname (.inr ?_)
  rw [mapType_name, hname]
  rfl

end SchemaSanitizer
