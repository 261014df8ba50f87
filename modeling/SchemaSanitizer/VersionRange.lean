/-
SchemaSanitizer/VersionRange.lean

The version numbers of a run (`register_field`, `next_variant_name`).  They are
read from names that a source supplies, kept in an `int`, and the next one of a
family is one more than its largest.

Every field of an incoming schema makes at most one new version, so a merge
raises the largest number by at most the number of incoming fields
(`mergeTypes_versionsBelow`, `mergeFields_versionsBelow`).  A run that starts with
numbers below a bound, and is supplied with such numbers only, stays in the range
of an `int` as long as the bound and the fields supplied do
(`registryRun_inRange`).

Nothing keeps a source from supplying the largest `int`, and then the first merge
that indexes the name computes its successor (`register_largest_version`).
-/
import SchemaSanitizer.Families
import SchemaSanitizer.Lib.Failure
import SchemaSanitizer.Versions

namespace SchemaSanitizer

open List

/-! ### Counting fields, bounding numbers -/

mutual

/-- The fields of a type, at all levels. -/
def LogicalType.fieldCount : LogicalType → Nat
  | .scalar _ => 0
  | .struct fields => fieldCountFields fields
  | .list value => fieldCountValue value

/-- The fields of an optional type. -/
def fieldCountValue : Option LogicalType → Nat
  | none => 0
  | some t => t.fieldCount

/-- A field and the fields of its type. -/
def fieldCountField : LogicalField → Nat
  | ⟨_, value, _⟩ => fieldCountValue value + 1

/-- The fields of one level and of the levels below. -/
def fieldCountFields : List LogicalField → Nat
  | [] => 0
  | f :: fs => fieldCountField f + fieldCountFields fs

end

variable {t : LogicalType}

theorem fieldCountField_of_type {f : LogicalField} (h : f.type = some t) :
    fieldCountField f = t.fieldCount + 1 := by
  obtain ⟨n, v, b⟩ := f
  cases h
  rfl

theorem fieldCountField_pos (f : LogicalField) : 0 < fieldCountField f := by
  obtain ⟨n, v, b⟩ := f
  exact Nat.succ_pos _

theorem fieldCountFields_append (l l' : List LogicalField) :
    fieldCountFields (l ++ l') = fieldCountFields l + fieldCountFields l' := by
  induction l with
  | nil => exact (Nat.zero_add _).symm
  | cons f l ih =>
    rw [cons_append, fieldCountFields, fieldCountFields, ih]
    omega

/-- The version numbers of one level are below a bound. -/
def VersionsBelow (bound : Nat) : LogicalType → Prop
  | .struct fields => ∀ f ∈ fields, memberVersion f.name < bound
  | _ => True

instance (bound : Nat) : DecidablePred (VersionsBelow bound)
  | .scalar _ => .isTrue trivial
  | .struct fields => inferInstanceAs (Decidable (∀ f ∈ fields, memberVersion f.name < bound))
  | .list _ => .isTrue trivial

/-- The version numbers below a type are below a bound. -/
abbrev LogicalType.Below (t : LogicalType) (bound : Nat) : Prop := t.Forall (VersionsBelow bound)

/-- The version numbers at and below a level are below a bound. -/
abbrev LevelBelow (bound : Nat) (fields : List LogicalField) : Prop :=
  (LogicalType.struct fields).Below bound

theorem VersionsBelow.mono {a b : Nat} (hab : a ≤ b) (t : LogicalType) (h : VersionsBelow a t) :
    VersionsBelow b t := by
  cases t with
  | scalar | list => trivial
  | struct fields => exact fun f hf => Nat.lt_of_lt_of_le (h f hf) hab

theorem forall_versionsBelow_mono {a b : Nat} (hab : a ≤ b) (h : t.Below a) : t.Below b :=
  h.mono (VersionsBelow.mono hab)

/-! ### The next version of a family -/

section NextVersion

variable {bound : Nat} {out : List LogicalField} {base : Bytes}

/-- Versions below a bound leave the next one at most the bound. -/
theorem nextVersion_le_bound (hbound : 2 ≤ bound) (h : ∀ f ∈ out, memberVersion f.name < bound) :
    nextVersion out base ≤ bound := by
  unfold nextVersion
  induction out using reverseRecOn with
  | nil => exact hbound
  | append_singleton out f ih =>
    have hold := ih fun g hg => h g (mem_append_left _ hg)
    rw [foldl_append, foldl_cons, foldl_nil]
    split
    · rename_i p hp
      split
      · have hlt := h f (by simp)
        rw [memberVersion_of_parse hp] at hlt
        exact max_le hold hlt
      · exact hold
    · exact hold

/-- The number a generated name is read back with is the next one of the family,
or none at all. -/
theorem memberVersion_nextVariantName_le (hbound : 2 ≤ bound)
    (h : ∀ f ∈ out, memberVersion f.name < bound) (t : LogicalType) :
    memberVersion (nextVariantName out base t) ≤ bound := by
  rcases hp : parseVersionedFieldName (nextVariantName out base t) with - | p
  · rw [memberVersion_of_none hp]
    omega
  · obtain ⟨hpbase, hle, hname⟩ := parse_nextVariantName hp
    obtain ⟨-, -, hne, -, hmax, -⟩ := parseVersionedFieldName_spec hp
    have hroom : HasRoom (family base out) := by
      intro g hg q hq
      obtain ⟨hmem, hfam⟩ := mem_family.mp hg
      have hlt := memberVersion_lt_nextVersion hmem
      rw [hfam, memberVersion_of_parse hq] at hlt
      omega
    rw [parse_nextVariantName_eq t (hpbase ▸ hne) hroom] at hp
    cases hp
    rw [memberVersion_of_parse (parse_nextVariantName_eq t (hpbase ▸ hne) hroom)]
    exact nextVersion_le_bound hbound h

end NextVersion

/-! ### What a merge does to the numbers -/

variable {fs : List LogicalField}

section Merge

variable {key path : Bytes} {bound : Nat} {out : List LogicalField}

theorem versionsBelow_set {i : Nat} {g : LogicalField} {v : Option LogicalType}
    (hout : LevelBelow bound out) (hg : out[i]? = some g) (hv : ∀ t, v = some t → t.Below bound) :
    LevelBelow bound (out.set i { g with type := v }) := by
  obtain ⟨hlevel, hnested⟩ := forall_struct.mp hout
  have hname := hlevel g (mem_of_getElem? hg)
  exact forall_struct.mpr ⟨forall_mem_set hlevel hname, forall_mem_set hnested hv⟩

theorem versionsBelow_concat {g : LogicalField} (hout : LevelBelow bound out)
    (hname : memberVersion g.name < bound) (hg : ∀ t, g.type = some t → t.Below bound) :
    LevelBelow bound (out ++ [g]) := by
  obtain ⟨hlevel, hnested⟩ := forall_struct.mp hout
  refine forall_struct.mpr ⟨?_, ?_⟩
  · exact forall_mem_append.mpr ⟨hlevel, forall_mem_singleton.mpr hname⟩
  · exact forall_mem_append.mpr ⟨hnested, forall_mem_singleton.mpr hg⟩

/-- **One step** raises the bound by one at its own level, and by what the nested
merge needs below. -/
theorem LevelStep.versionsBelow {f : LogicalField} {out : List LogicalField} {r : MergedFields}
    {extra : Nat} (hstep : LevelStep key path f out r) (hbound : 2 ≤ bound)
    (hname : memberVersion f.name < bound)
    (hf : ∀ t, f.type = some t → t.Below bound)
    (hout : LevelBelow bound out)
    (ih : ∀ t, f.type = some t → ∀ g ∈ out, ∀ c, g.type = some c →
      ∀ q, mergeTypes key c t path = some q → q.1.Below (bound + extra)) :
    LevelBelow (bound + extra + 1) r.1 := by
  have hlevel := (forall_struct.mp hout).1
  have hwider : bound ≤ bound + extra + 1 := by omega
  have hold := forall_versionsBelow_mono hwider hout
  have hnew : ∀ t, f.type = some t → t.Below (bound + extra + 1) :=
    fun t ht => forall_versionsBelow_mono hwider (hf t ht)
  cases hstep with
  | unchanged => exact hold
  | evolved ht hg hfam hc hr =>
    refine versionsBelow_set hold hg ?_
    rintro t ⟨rfl⟩
    exact forall_versionsBelow_mono (Nat.le_succ _)
      (ih _ ht _ (mem_of_getElem? hg) _ hc _ hr)
  | filled hg hname hc => exact versionsBelow_set hold hg hnew
  | added hfresh => exact versionsBelow_concat hold (Nat.lt_of_lt_of_le hname hwider) hnew
  | @variant t previous ht hpresent hmember hfail =>
    refine versionsBelow_concat hold ?_ hnew
    have hle := @memberVersion_nextVariantName_le _ _ (familyBaseName f) hbound hlevel t
    show memberVersion (nextVariantName out (familyBaseName f) t) < bound + extra + 1
    omega

/-- The merges of a type stay below a bound that grows with its fields. -/
def MergesBelow (key : Bytes) (t : LogicalType) : Prop :=
  ∀ (bound : Nat) (c : LogicalType) (path : Bytes) (q : MergedType),
    mergeTypes key c t path = some q → 2 ≤ bound → memberVersion (wrapperKey key) < bound →
    c.Forall (VersionsBelow bound) → t.Forall (VersionsBelow bound) →
    q.1.Forall (VersionsBelow (bound + t.fieldCount))

/-- **One turn of the loop.** -/
theorem mergeField_versionsBelow {f : LogicalField} {out : List LogicalField}
    (ih : ∀ t, f.type = some t → MergesBelow key t) (hbound : 2 ≤ bound)
    (hkey : memberVersion (wrapperKey key) < bound) (hf : LevelBelow bound [f])
    (hout : LevelBelow bound out) :
    (LogicalType.struct (mergeField key out f path).1).Forall
      (VersionsBelow (bound + fieldCountField f)) := by
  obtain ⟨hname, htype⟩ := forall_struct.mp hf
  have hstep := mergeField_step key out f path
  rcases ht : f.type with - | t
  · have hfresult := @LevelStep.versionsBelow _ _ _ _ _ _ 0 hstep hbound (hname f mem_cons_self)
      (htype f mem_cons_self) hout fun t ht' => by rw [ht] at ht'; cases ht'
    exact forall_versionsBelow_mono (Nat.add_le_add_left (fieldCountField_pos f) bound) hfresult
  · rw [fieldCountField_of_type ht]
    refine hstep.versionsBelow hbound (hname f mem_cons_self) (htype f mem_cons_self) hout
      fun t' ht' g hg c hc q hq => ?_
    cases ht.symm.trans ht'
    exact ih t ht bound c _ q hq hbound hkey ((forall_struct.mp hout).2 g hg c hc)
      (htype f mem_cons_self t ht)

theorem versionsBelow_of_append {l l' : List LogicalField} (h : LevelBelow bound (l ++ l')) :
    LevelBelow bound l ∧
      LevelBelow bound l' := by
  obtain ⟨hlevel, hnested⟩ := forall_struct.mp h
  constructor
  · exact forall_struct.mpr ⟨fun f hf => hlevel f (mem_append_left _ hf),
      fun f hf => hnested f (mem_append_left _ hf)⟩
  · exact forall_struct.mpr ⟨fun f hf => hlevel f (mem_append_right _ hf),
      fun f hf => hnested f (mem_append_right _ hf)⟩

/-- **The loop over incoming fields**: each raises the bound by its own count. -/
theorem mergeFields_versionsBelow_of (ih : ∀ f ∈ fs, ∀ t, f.type = some t → MergesBelow key t) :
    ∀ (bound : Nat) (out : List LogicalField), 2 ≤ bound → memberVersion (wrapperKey key) < bound →
    LevelBelow bound out →
    LevelBelow bound fs →
    (LogicalType.struct (mergeFields key out fs path).1).Forall
      (VersionsBelow (bound + fieldCountFields fs)) := by
  induction fs with
  | nil => exact fun bound out _ _ hout _ => hout
  | cons f fs ihfs =>
    intro bound out hbound hkey hout hfs
    obtain ⟨hf, hrest⟩ := versionsBelow_of_append (l := [f]) hfs
    have hturn := @mergeField_versionsBelow _ path _ _ _ (ih f mem_cons_self) hbound hkey
      hf hout
    have hwider : bound ≤ bound + fieldCountField f := Nat.le_add_right _ _
    have hloop := ihfs (fun g hg => ih g (mem_cons_of_mem f hg)) _ _
      (hbound.trans hwider) (Nat.lt_of_lt_of_le hkey hwider) hturn
      (forall_versionsBelow_mono hwider hrest)
    rw [mergeFields, fieldCountFields, ← Nat.add_assoc]
    exact hloop

/-- **A merge of types** raises the bound by the fields of the incoming type. -/
theorem mergeTypes_versionsBelow (t : LogicalType) : MergesBelow key t := by
  suffices h : ∀ base path r, mergeTypes key base t path = some r → ∀ bound, 2 ≤ bound →
      memberVersion (wrapperKey key) < bound → base.Below bound →
      t.Below bound → r.1.Below (bound + t.fieldCount) from
    fun bound c path q hq hbound hkey hc ht => h c path q hq bound hbound hkey hc ht
  refine mergeTypes_rule (R := fun base t _ r => ∀ bound, 2 ≤ bound →
      memberVersion (wrapperKey key) < bound → base.Below bound →
      t.Below bound → r.1.Below (bound + t.fieldCount))
    ⟨?scalar, ?wrap, ?struct, ?enter, ?listNone, ?listSome⟩ t
  case scalar => exact fun _ _ _ _ _ _ _ _ _ _ => forall_scalar.mpr trivial
  case wrap =>
    -- a wrapped scalar appends the wrapper field at most, under a name that is not made
    intro bs k path r hwrap ih bound hbound hkey hbs hk
    show LevelBelow bound r.1
    rcases wrapScalar_cases hwrap with ⟨-, rfl⟩ | ⟨i, g, hg, -, -, rfl⟩ |
      ⟨i, g, c, q, hg, -, hc, hq, rfl⟩
    · refine versionsBelow_concat hbs hkey ?_
      rintro t ⟨rfl⟩
      exact hk
    · refine versionsBelow_set hbs hg ?_
      rintro t ⟨rfl⟩
      exact hk
    · have hmem := mem_of_getElem? hg
      refine versionsBelow_set hbs hg ?_
      rintro t ⟨rfl⟩
      exact ih g hmem c hc _ q (by rw [mergeTypes_scalar]; exact hq) bound hbound hkey
        ((forall_struct.mp hbs).2 g hmem c hc) hk
  case struct =>
    intro bs fs path ih bound hbound hkey hbs hfs
    refine mergeFields_versionsBelow_of (fun f hf t ht => ?_) bound bs hbound hkey hbs hfs
    exact fun b c p q hq hb hk hc ht' => ih f hf t ht c p q hq b hb hk hc ht'
  case enter =>
    intro e t path r _ ih bound hbound hkey hbase ht
    exact forall_listSome.mpr ⟨trivial, ih bound hbound hkey (forall_listSome.mp hbase).2 ht⟩
  case listNone =>
    intro e path bound hbound hkey hbase ht
    exact hbase
  case listSome =>
    intro e t path r ih bound hbound hkey hbase ht
    exact forall_listSome.mpr ⟨trivial,
      ih bound hbound hkey (forall_listSome.mp hbase).2 (forall_listSome.mp ht).2⟩

theorem mergeFields_versionsBelow (hbound : 2 ≤ bound)
    (hkey : memberVersion (wrapperKey key) < bound) (hout : LevelBelow bound out)
    (hfs : LevelBelow bound fs) :
    (LogicalType.struct (mergeFields key out fs path).1).Forall
      (VersionsBelow (bound + fieldCountFields fs)) :=
  mergeFields_versionsBelow_of (fun _ _ t _ =>
    mergeTypes_versionsBelow t) bound out hbound hkey hout
    hfs

end Merge

/-! ### Normalization and order make no numbers -/

variable {order : FieldOrderPolicy}

section Unchanged

variable {bound : Nat}

theorem normalize_versionsBelow : t.Below bound →
    (normalizeIntegerFloatType t).Below bound := by
  refine levelMap_normalize.all (fun _ => trivial) id (fun _ => trivial) fun fields hlevel g hg =>
    ?_
  rw [normalizeIntegerFloatFields_eq] at hg
  obtain ⟨f', hf', rfl⟩ := mem_normalizeLevel hg
  obtain ⟨i, f, hi, hkeep⟩ := mem_survivors.mp hf'
  obtain ⟨f₀, hf₀, rfl⟩ := mem_map.mp (mem_of_getElem? hi)
  rw [memberVersion_canonicalize, (keepNumeric_keeps hkeep).1]
  exact hlevel f₀ hf₀

theorem normalizeSchema_versionsBelow {schema : LogicalSchema}
    (h : LevelBelow bound schema.fields) :
    (LogicalType.struct (normalizeIntegerFloatSchema schema).fields).Below bound := by
  have hnormal := normalize_versionsBelow h
  rwa [normalizeIntegerFloatType] at hnormal

theorem arrange_versionsBelow {order : FieldOrderPolicy} {fields : List LogicalField}
    (hlevel : VersionsBelow bound (.struct fields))
    (hnested : ∀ f ∈ fields, ∀ t, f.type = some t → ∀ contract,
      (reorderType order t contract).Below bound) (base : Option LogicalType) :
    LevelBelow bound (arrange order (reorderers order fields) base) := by
  refine forall_struct.mpr ⟨fun g hg => ?_, fun g hg t ht => ?_⟩
  · obtain ⟨f, hf, contract, rfl, -⟩ := mem_arrange hg
    rw [reorderField_name]
    exact hlevel f hf
  · obtain ⟨f, hf, contract, rfl, -⟩ := mem_arrange hg
    rw [reorderField_type] at ht
    obtain ⟨u, hu, rfl⟩ := Option.map_eq_some_iff.mp ht
    exact hnested f hf u hu contract

theorem reorderType_versionsBelow (h : t.Below bound) :
    ∀ contract, (reorderType order t contract).Below bound := by
  induction t with
  | scalar k => exact fun _ => forall_scalar.mpr trivial
  | struct fields ih =>
    intro contract
    obtain ⟨hlevel, hnested⟩ := forall_struct.mp h
    rw [reorderType]
    exact arrange_versionsBelow hlevel (fun f hf t ht => ih f hf t ht (hnested f hf t ht)) contract
  | listNone => exact fun _ => forall_listNone.mpr trivial
  | listSome t ih =>
    intro contract
    rw [reorderType, reorderValue]
    exact forall_listSome.mpr ⟨trivial, ih (forall_listSome.mp h).2 _⟩

theorem reorderSchemaFields_versionsBelow {schema : LogicalSchema} {base : Option LogicalSchema}
    (h : LevelBelow bound schema.fields) :
    (LogicalType.struct (reorderSchemaFields schema base order).fields).Forall
      (VersionsBelow bound) := by
  obtain ⟨hlevel, hnested⟩ := forall_struct.mp h
  have harrange := @arrange_versionsBelow _ order _ hlevel fun f hf t ht =>
    reorderType_versionsBelow (hnested f hf t ht)
  unfold reorderSchemaFields
  split
  · exact h
  · split
    · split
      · exact harrange none
      · exact harrange _
    · exact harrange none

end Unchanged

/-! ### The turns of a merge -/

/-- `parsed->version + 1` in `register_field`, as an integer; the source computes
it in an `int`. -/
def VersionedFieldName.successor (p : VersionedFieldName) : Int := p.version + 1

/-- **A turn in range**: no sum leaves the range of an `int` while the level and
its new field are registered, and a generated name carries the next number of its
family at once, beyond all numbers of the family. -/
structure MergeTurn.InRange (key : Bytes) (turn : MergeTurn) : Prop where
  registered : ∀ g ∈ turn.out ++ (mergeField key turn.out turn.incoming turn.parentPath).1,
    ∀ p, parseVersionedFieldName g.name = some p → p.successor ≤ intMax
  generated : ∀ t, turn.incoming.type = some t →
    ∃ p, parseVersionedFieldName
        (nextVariantName turn.out (familyBaseName turn.incoming) t) = some p ∧
      p.base = familyBaseName turn.incoming ∧
      p.version = nextVersion turn.out (familyBaseName turn.incoming) ∧
      ∀ g ∈ turn.out, familyBaseName g = familyBaseName turn.incoming →
        memberVersion g.name < p.version

section Turns

variable {key : Bytes} {bound : Nat}

theorem StructsMeet.fieldCount_le {c : LogicalType} {path path' : Bytes} {bs : List LogicalField}
    (h : StructsMeet c t path bs fs path') : fieldCountFields fs ≤ t.fieldCount := by
  induction h with
  | structs => exact Nat.le_refl _
  | enter _ ih => exact ih
  | elements _ ih => exact ih

/-- What is below a bound when a turn begins; `spent` counts the incoming fields
that came before. -/
structure MergeTurn.Below (bound spent total : Nat) (turn : MergeTurn) : Prop where
  count : spent + fieldCountField turn.incoming ≤ total
  out : (LogicalType.struct turn.out).Forall (VersionsBelow (bound + spent))
  incoming : (LogicalType.struct [turn.incoming]).Forall (VersionsBelow (bound + spent))

/-- **Every turn begins below the bound**, with its own fields still to come. -/
theorem TurnOf.beginsBelow {base incoming : List LogicalField} {path : Bytes} {turn : MergeTurn}
    (h : TurnOf key base incoming path turn) : ∀ bound, 2 ≤ bound →
    memberVersion (wrapperKey key) < bound →
    LevelBelow bound base →
    LevelBelow bound incoming →
    ∃ spent, turn.Below bound spent (fieldCountFields incoming) := by
  induction h with
  | loop base pre f post path =>
    intro bound hbound hkey hbase hincoming
    obtain ⟨hpre, hrest⟩ := versionsBelow_of_append hincoming
    obtain ⟨hf, -⟩ := versionsBelow_of_append (l := [f]) hrest
    refine ⟨fieldCountFields pre, ?_, mergeFields_versionsBelow hbound hkey hbase hpre,
      forall_versionsBelow_mono (Nat.le_add_right _ _) hf⟩
    rw [fieldCountFields_append, fieldCountFields]
    show fieldCountFields pre + fieldCountField f ≤ _
    omega
  | @nested base incoming bs fs path path' outer inner g c t houter hg hfam hc ht hmeets hinner
      ihouter ihinner =>
      intro bound hbound hkey hbase hincoming
      obtain ⟨spent, hcount, hout, hin⟩ := ihouter bound hbound hkey hbase hincoming
      have hwider : bound ≤ bound + spent := Nat.le_add_right _ _
      obtain ⟨hbs, hfs⟩ := hmeets.forall ((forall_struct.mp hout).2 g hg c hc)
        ((forall_struct.mp hin).2 _ (mem_singleton_self _) t ht)
      obtain ⟨more, hmore, hinnerOut, hinnerIn⟩ := ihinner (bound + spent) (hbound.trans hwider)
        (Nat.lt_of_lt_of_le hkey hwider) hbs hfs
      have hfields := hmeets.fieldCount_le
      rw [fieldCountField_of_type ht] at hcount
      refine ⟨spent + more, by omega, ?_, ?_⟩
      · rw [← Nat.add_assoc]
        exact hinnerOut
      · rw [← Nat.add_assoc]
        exact hinnerIn

theorem successor_le_of_versionsBelow {fields : List LogicalField} {limit : Nat}
    (hlimit : (limit : Int) ≤ intMax) (h : VersionsBelow limit (.struct fields)) :
    ∀ g ∈ fields, ∀ p, parseVersionedFieldName g.name = some p → p.successor ≤ intMax := by
  intro g hg p hp
  have hlt := h g hg
  rw [memberVersion_of_parse hp] at hlt
  rw [VersionedFieldName.successor]
  omega

/-- A turn that begins far enough below the largest `int` stays in range. -/
theorem MergeTurn.Below.inRange {spent total : Nat} {turn : MergeTurn}
    (h : turn.Below bound spent total) (hbound : 2 ≤ bound)
    (hkey : memberVersion (wrapperKey key) < bound) (hroom : (bound + total : Int) ≤ intMax)
    (hname : turn.incoming.name ≠ []) : turn.InRange key := by
  obtain ⟨hcount, hout, hin⟩ := h
  have hpos := fieldCountField_pos turn.incoming
  have hlevel := (forall_struct.mp hout).1
  have hafter := @mergeField_versionsBelow key turn.parentPath _ _ _
    (fun t _ => mergeTypes_versionsBelow t) (hbound.trans (Nat.le_add_right _ _))
    (Nat.lt_of_lt_of_le hkey (Nat.le_add_right _ _)) hin hout
  constructor
  · intro g hg
    rcases mem_append.mp hg with hg | hg
    · exact successor_le_of_versionsBelow (by omega) hlevel g hg
    · exact successor_le_of_versionsBelow (by omega) (forall_struct.mp hafter).1 g hg
  · intro t ht
    have hfamily : familyBaseName turn.incoming ≠ [] := by
      rcases hp : parseVersionedFieldName turn.incoming.name with - | p
      · rw [familyBaseName, variantFamilyBase_of_none hp]
        exact hname
      · obtain ⟨-, -, hne, -⟩ := parseVersionedFieldName_spec hp
        rw [familyBaseName, variantFamilyBase_of_parse hp]
        exact hne
    have hroom : HasRoom (family (familyBaseName turn.incoming) turn.out) := by
      intro g hg p hp
      have hlt := hlevel g (mem_family.mp hg).1
      rw [memberVersion_of_parse hp] at hlt
      omega
    refine ⟨_, parse_nextVariantName_eq t hfamily hroom, rfl, rfl, fun g hg hfam => ?_⟩
    have hlt := memberVersion_lt_nextVersion hg
    rwa [hfam] at hlt

end Turns

/-! ### Runs of merges -/

/-- The registry schema after one call: that of the result, or the old one if the
call fails. -/
def registryStep (clock : Except Bytes Bytes) (schema : LogicalSchema)
    (input : SchemaRegistryMergeInput) : LogicalSchema :=
  match mergeSchemaRegistryWithPrevious clock input (some schema) with
  | .ok result => result.schema
  | .error _ => schema

/-- The registry schema after a run of calls. -/
def registryRun (clock : Except Bytes Bytes) (schema : LogicalSchema)
    (inputs : List SchemaRegistryMergeInput) : LogicalSchema :=
  inputs.foldl (registryStep clock) schema

/-- The incoming fields of one call, at all levels. -/
def suppliedFields (input : SchemaRegistryMergeInput) : Nat :=
  fieldCountFields (normalizeIntegerFloatSchema input.inferredSchema).fields

/-- The names a call supplies carry numbers below the bound. -/
structure SuppliesBelow (bound : Nat) (input : SchemaRegistryMergeInput) : Prop where
  inferred : (LogicalType.struct input.inferredSchema.fields).Forall (VersionsBelow bound)
  key : memberVersion (wrapperKey input.defaultKeyName) < bound

section Run

variable {clock : Except Bytes Bytes} {bound : Nat} {schema : LogicalSchema}
  {input : SchemaRegistryMergeInput}

theorem SuppliesBelow.mono {wider : Nat} (hle : bound ≤ wider) (h : SuppliesBelow bound input) :
    SuppliesBelow wider input :=
  ⟨forall_versionsBelow_mono hle h.inferred, Nat.lt_of_lt_of_le h.key hle⟩

theorem applyOrder_versionsBelow (h : LevelBelow bound schema.fields) :
    (LogicalType.struct (applyOrder order schema).fields).Below bound := by
  cases order with
  | alphabetically => exact reorderSchemaFields_versionsBelow h
  | schemaContractFirst => exact h

theorem additiveMerge_versionsBelow (hbound : 2 ≤ bound) (h : LevelBelow bound schema.fields)
    (hinput : SuppliesBelow bound input) :
    (LogicalType.struct (additiveMerge input.defaultKeyName input.fieldOrder schema
      input.inferredSchema).1.fields).Below (bound + suppliedFields input) := by
  have hinferred := normalizeSchema_versionsBelow hinput.inferred
  unfold additiveMerge
  split
  · apply applyOrder_versionsBelow
    exact forall_versionsBelow_mono (Nat.le_add_right _ _) (normalizeSchema_versionsBelow hinferred)
  · apply applyOrder_versionsBelow
    apply normalizeSchema_versionsBelow
    exact mergeFields_versionsBelow hbound hinput.key (normalizeSchema_versionsBelow h) hinferred

/-- A strict merge keeps the versions below the bound. -/
theorem strictMerge_versionsBelow {inferred : LogicalSchema} {r : LogicalSchema × List DriftEvent}
    (h : LevelBelow bound schema.fields) (hr : strictMerge order schema inferred = .ok r) :
    LevelBelow bound r.1.fields := by
  unfold strictMerge at hr
  split at hr
  · cases hr
  · split at hr
    · cases hr
    · rename_i evolved hevolved
      cases hr
      apply normalizeSchema_versionsBelow
      unfold evolveSchema at hevolved
      dsimp only at hevolved
      obtain ⟨-, -, hplaced⟩ := Lib.bind_eq_ok_iff.mp hevolved
      cases order with
      | schemaContractFirst =>
        cases hplaced
        exact normalizeSchema_versionsBelow h
      | alphabetically =>
        cases hplaced
        exact reorderSchemaFields_versionsBelow (normalizeSchema_versionsBelow h)

/-- **One call** raises the bound by the fields it supplies. -/
theorem registryStep_versionsBelow (hbound : 2 ≤ bound) (h : LevelBelow bound schema.fields)
    (hinput : SuppliesBelow bound input) :
    (LogicalType.struct (registryStep clock schema input).fields).Forall
      (VersionsBelow (bound + suppliedFields input)) := by
  have hold := forall_versionsBelow_mono (Nat.le_add_right bound (suppliedFields input)) h
  unfold registryStep
  split
  · rename_i result hok
    obtain ⟨-, -, hmerge, -⟩ := merge_ok hok
    unfold mergeCanonical at hmerge
    dsimp only [Option.getD_some] at hmerge
    split at hmerge
    · exact strictMerge_versionsBelow hold hmerge
    · have hadditive := additiveMerge_versionsBelow hbound h hinput
      rw [Except.ok.inj hmerge] at hadditive
      exact hadditive
  · exact hold

/-- **A run** raises the bound by all the fields supplied. -/
theorem registryRun_versionsBelow : ∀ (inputs : List SchemaRegistryMergeInput) {bound : Nat}
    {schema : LogicalSchema}, 2 ≤ bound →
    LevelBelow bound schema.fields →
    (∀ input ∈ inputs, SuppliesBelow bound input) →
    (LogicalType.struct (registryRun clock schema inputs).fields).Forall
      (VersionsBelow (bound + (inputs.map suppliedFields).sum)) := by
  intro inputs
  induction inputs with
  | nil => exact fun _ h _ => h
  | cons input inputs ih =>
    intro bound schema hbound h hinputs
    have hwider : bound ≤ bound + suppliedFields input := Nat.le_add_right _ _
    have hstep := @registryStep_versionsBelow clock _ _ _ hbound h
      (hinputs input mem_cons_self)
    have hrun := ih (hbound.trans hwider) hstep fun i hi =>
      (hinputs i (mem_cons_of_mem input hi)).mono hwider
    rw [map_cons, sum_cons, ← Nat.add_assoc]
    exact hrun

/-- **The version numbers of a run.**  From any registry, and for calls that
supply numbers below a bound, every turn of every merge of the run is in range:
as long as the bound and the number of supplied fields together are no more than
the largest `int`. -/
theorem registryRun_inRange (clock : Except Bytes Bytes) (initial : LogicalSchema)
    (inputs : List SchemaRegistryMergeInput) (bound : Nat) (hbound : 2 ≤ bound)
    (hinitial : (LogicalType.struct initial.fields).Forall (VersionsBelow bound))
    (hinputs : ∀ input ∈ inputs, SuppliesBelow bound input)
    (hroom : (bound + (inputs.map suppliedFields).sum : Int) ≤ intMax)
    (before after : List SchemaRegistryMergeInput) (input : SchemaRegistryMergeInput)
    (hsplit : inputs = before ++ input :: after) (turn : MergeTurn)
    (hturn : TurnOf input.defaultKeyName
      (normalizeIntegerFloatSchema (registryRun clock initial before)).fields
      (normalizeIntegerFloatSchema input.inferredSchema).fields [] turn)
    (hname : turn.incoming.name ≠ []) : turn.InRange input.defaultKeyName := by
  subst hsplit
  have hrun := @registryRun_versionsBelow clock before _ _ hbound hinitial fun i hi =>
    hinputs i (mem_append_left _ hi)
  have hsupplied : SuppliesBelow bound input := hinputs input (by simp)
  have hwider : bound ≤ bound + (before.map suppliedFields).sum := Nat.le_add_right _ _
  obtain ⟨spent, hbelow⟩ := hturn.beginsBelow _ (hbound.trans hwider)
    (hsupplied.mono hwider).key (normalizeSchema_versionsBelow hrun)
    (normalizeSchema_versionsBelow (hsupplied.mono hwider).inferred)
  refine hbelow.inRange (hbound.trans hwider) (hsupplied.mono hwider).key ?_ hname
  rw [map_append, map_cons, sum_append, sum_cons] at hroom
  show ((bound + (before.map suppliedFields).sum : Nat) : Int) +
    (suppliedFields input : Int) ≤ intMax
  omega

end Run

/-- An integer column that becomes text: its second version is in range. -/
theorem registryRun_inRange_sample :
    MergeTurn.InRange (bytes "default_key")
      ⟨(mergeFields (bytes "default_key") (normalizeIntegerFloatSchema (registryRun (.ok []) ⟨[]⟩
          [sampleInput .schemaContractFirst [sampleField "a" (.scalar .int64)]])).fields [] []).1,
        sampleField "a" (.scalar .utf8), []⟩ := by
  refine registryRun_inRange (.ok []) ⟨[]⟩
    [sampleInput .schemaContractFirst [sampleField "a" (.scalar .int64)],
      sampleInput .schemaContractFirst [sampleField "a" (.scalar .utf8)]] 2 (by decide) (by decide)
    ?_ (by decide) [sampleInput .schemaContractFirst [sampleField "a" (.scalar .int64)]] []
    (sampleInput .schemaContractFirst [sampleField "a" (.scalar .utf8)]) rfl _
    (TurnOf.loop _ [] _ [] _) (by decide)
  intro input hinput
  rcases mem_cons.mp hinput with rfl | hinput
  · exact ⟨by decide, by decide⟩
  · rw [mem_singleton.mp hinput]
    exact ⟨by decide, by decide⟩

/-- A source may supply the largest `int` as a version: the second merge of this
run computes its successor when it indexes the registry. -/
theorem register_largest_version :
    (registryRun (.ok []) ⟨[]⟩ [sampleInput .schemaContractFirst
        [sampleField "a_v2147483647_string" (.scalar .utf8)]]).fields =
      [sampleField "a_v2147483647_string" (.scalar .utf8)] ∧
    ∃ turn, TurnOf (bytes "default_key")
        (normalizeIntegerFloatSchema (registryRun (.ok []) ⟨[]⟩ [sampleInput .schemaContractFirst
          [sampleField "a_v2147483647_string" (.scalar .utf8)]])).fields
        [sampleField "a_v2_boolean" (.scalar .bool)] [] turn ∧
      turn.incoming.name ≠ [] ∧
      (∃ g ∈ turn.out, ∃ p, parseVersionedFieldName g.name = some p ∧ intMax < p.successor) ∧
      ¬ turn.InRange (bytes "default_key") := by
  have hnormal : (normalizeIntegerFloatSchema (registryRun (.ok []) ⟨[]⟩
      [sampleInput .schemaContractFirst
        [sampleField "a_v2147483647_string" (.scalar .utf8)]])).fields =
      [sampleField "a_v2147483647_string" (.scalar .utf8)] := by
    decide +kernel
  have hparse : parseVersionedFieldName (bytes "a_v2147483647_string") =
      some ⟨bytes "a", 2147483647, bytes "string"⟩ := by
    decide +kernel
  refine ⟨by decide +kernel, _, TurnOf.loop _ [] _ [] _, by decide, ?_, fun hrange => ?_⟩
  · rw [hnormal]
    exact ⟨_, mem_cons_self, _, hparse, by decide⟩
  · rw [hnormal] at hrange
    have hle := hrange.registered _ (mem_append_left _ mem_cons_self) _ hparse
    exact absurd hle (by decide)

end SchemaSanitizer
