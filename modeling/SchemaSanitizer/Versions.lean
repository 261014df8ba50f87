/-
SchemaSanitizer/Versions.lean

Is the newest compatible member of a family the one that is evolved?

The merge probes a family from its last position to its first, so the question is
whether positions follow version numbers (`NamesInOrder`).  A new version goes to
the end of its level with a number beyond all others, and an unversioned field
starts its family, so a merge keeps that order (`orderInvariant`); renaming a
suffix changes no number.  Sorting by name keeps it only among numbers of one
digit, since `a_v10_string` comes before `a_v9_string`.

`D` says which numbers the order is about: all of them in a run that never sorts,
those below ten in any run (`reachable_ordered`).  A level where all numbers are in
`D` is in order, and stays so through all turns of the next merge, on every level
(`MergeTurn.Sound`); each turn then evolves the member with the highest number
(`newest_version_evolves`).
-/
import SchemaSanitizer.Width

namespace SchemaSanitizer

open List

/-! ### The order of a level -/

variable {name key : Bytes} {names : List Bytes}

/-- The version of a member of a family; the unversioned field counts as the first. -/
def memberVersion (name : Bytes) : Nat := (versionNumber name).getD 1

/-- Members of one family stand in the order of their versions, as far as these
are in `D`. -/
def NamesInOrder (D : Nat → Prop) (names : List Bytes) : Prop :=
  names.Pairwise fun n m => variantFamilyBase n = variantFamilyBase m →
    D (memberVersion n) → D (memberVersion m) → memberVersion n < memberVersion m

theorem memberVersion_of_none (h : parseVersionedFieldName name = none) :
    memberVersion name = 1 := by
  rw [memberVersion, versionNumber, h]
  rfl

theorem memberVersion_of_parse {p : VersionedFieldName}
    (h : parseVersionedFieldName name = some p) : memberVersion name = p.version := by
  rw [memberVersion, versionNumber, h]
  rfl

theorem memberVersion_canonicalize (f : LogicalField) :
    memberVersion (canonicalizeVersionedNameForType f).name = memberVersion f.name := by
  rw [memberVersion, memberVersion, versionNumber_eq, versionNumber_eq, baseAndVersion_canonicalize]

section Order

variable {D : Nat → Prop}

theorem namesInOrder_unversioned (hnodup : names.Nodup)
    (h : ∀ n ∈ names, parseVersionedFieldName n = none) : NamesInOrder D names := by
  refine hnodup.imp_of_mem ?_
  intro n m hn hm hne hfam
  rw [variantFamilyBase_of_none (h n hn), variantFamilyBase_of_none (h m hm)] at hfam
  exact absurd hfam hne

theorem NamesInOrder.concat (h : NamesInOrder D names)
    (hnew : ∀ n ∈ names, variantFamilyBase n = variantFamilyBase name →
      memberVersion n < memberVersion name) : NamesInOrder D (names ++ [name]) := by
  refine pairwise_append.mpr ⟨h, pairwise_singleton _ _, ?_⟩
  intro n hn m hm hfam _ _
  obtain rfl := mem_singleton.mp hm
  exact hnew n hn hfam

theorem memberVersion_lt_nextVersion {fields : List LogicalField} {g : LogicalField}
    (hg : g ∈ fields) : memberVersion g.name < nextVersion fields (familyBaseName g) := by
  rcases hp : parseVersionedFieldName g.name with - | p
  · rw [memberVersion_of_none hp]
    exact two_le_nextVersion _ _
  · rw [memberVersion_of_parse hp, familyBaseName, variantFamilyBase_of_parse hp]
    exact version_lt_nextVersion hg hp

/-- **One step keeps the order.** -/
theorem LevelStep.namesInOrder {path : Bytes} {f : LogicalField} {out : List LogicalField}
    {r : MergedFields} (h : LevelStep key path f out r) (hout : FamilyLevel out)
    (hname : parseVersionedFieldName f.name = none)
    (horder : NamesInOrder D (out.map FieldOf.name)) : NamesInOrder D (r.1.map FieldOf.name) := by
  -- nobody is in a family whose base is not among the names
  have hlone : ∀ {base : Bytes}, base ∉ out.map FieldOf.name →
      ∀ n ∈ out.map FieldOf.name, variantFamilyBase n ≠ base := by
    intro base hbase n hn heq
    exact hbase (heq ▸ hout.names.family_mem hn)
  cases h with
  | unchanged => exact horder
  | evolved ht hg hfam hc hr =>
    rw [map_name_set hg]
    · exact horder
    · rfl
  | filled hg hfname hc =>
    rw [map_name_set hg]
    · exact horder
    · rfl
  | added hfresh =>
    rw [map_append, map_singleton]
    refine horder.concat ?_
    intro n hn hfam
    rw [variantFamilyBase_of_none hname] at hfam
    exact absurd hfam (hlone hfresh n hn)
  | @variant t previous ht hpresent hmember hfail =>
    rw [map_append, map_singleton]
    refine horder.concat ?_
    obtain ⟨-, -, -, hfresh⟩ := nextVariantName_spec out (familyBaseName f) t
    intro n hn hfam
    rcases hp : parseVersionedFieldName (nextVariantName out (familyBaseName f) t) with - | p
    · -- the numbers have run out: the new name is no version
      rw [variantFamilyBase_of_none hp] at hfam
      exact absurd hfam (hlone hfresh n hn)
    · obtain ⟨g, hg, rfl⟩ := mem_map.mp hn
      obtain ⟨hbase, hle, -⟩ := parse_nextVariantName hp
      rw [variantFamilyBase_of_parse hp, hbase] at hfam
      calc memberVersion g.name
          < nextVersion out (familyBaseName g) := memberVersion_lt_nextVersion hg
        _ = nextVersion out (familyBaseName f) := congrArg _ hfam
        _ ≤ p.version := hle
        _ = _ := (memberVersion_of_parse hp).symm

end Order

/-! ### All levels of a type -/

variable {t : LogicalType} {D : Nat → Prop}

/-- The family invariant, and version order, at a node. -/
def OrderedNode (D : Nat → Prop) : LogicalType → Prop
  | .scalar _ => True
  | .struct fields => FamilyLevel fields ∧ NamesInOrder D (fields.map FieldOf.name)
  | .list value => value ≠ none

/-- **Version order is kept by merges of inferred types.** -/
theorem orderInvariant (D : Nat → Prop) (hkey : parseVersionedFieldName (wrapperKey key) = none) :
    MergeInvariant key (OrderedNode D) InferredNode
      fun f => f.type ≠ none ∧ parseVersionedFieldName f.name = none where
  scalar _ := trivial
  list _ := Option.some_ne_none _
  initial t ht := by
    rcases t with k | fields | value
    · trivial
    · refine ⟨InferredLevel.familyLevel ht, namesInOrder_unversioned (InferredLevel.nodup ht) ?_⟩
      intro n hn
      obtain ⟨f, hf, rfl⟩ := mem_map.mp hn
      exact InferredLevel.unversioned ht f hf
    · exact ht
  fits _ hfs f hf := ⟨InferredLevel.typed hfs f hf, InferredLevel.unversioned hfs f hf⟩
  wrapper _ := ⟨Option.some_ne_none _, hkey⟩
  level _ _ _ _ hstep hfits hout :=
    ⟨hstep.familyLevel hout.1 hfits.1 hfits.2, hstep.namesInOrder hout.1 hfits.2 hout.2⟩

/-! ### Renaming and sorting -/

/-- The normalizer renames a level without touching its order. -/
theorem normalize_ordered :
    t.Forall (OrderedNode D) → (normalizeIntegerFloatType t).Forall (OrderedNode D) := by
  refine levelMap_normalize.all (fun _ => trivial) id (fun _ => Option.some_ne_none _) ?_
  rintro fields ⟨hlevel, horder⟩
  rw [normalizeIntegerFloatFields_families hlevel]
  constructor
  · exact (hlevel.mapType fun _ => levelMap_normalize.numericLike).canonicalize.toFamilyLevel
  · rw [NamesInOrder, pairwise_map] at horder
    rw [NamesInOrder, map_map, map_map, pairwise_map]
    refine horder.imp ?_
    intro f g hfg hfam hf hg
    simp only [Function.comp_apply, memberVersion_canonicalize] at hf hg ⊢
    refine hfg ?_ hf hg
    -- a family is named by its base, which renaming keeps
    have hbase := fun f : LogicalField =>
      familyBaseName_canonicalize (f.mapType normalizeIntegerFloatType)
    exact (hbase f).symm.trans (hfam.trans (hbase g))

theorem decimal_of_lt_ten {v : Nat} (h : v < 10) : decimal v = [UInt8.ofNat (48 + v)] := by
  interval_cases v <;> rfl

/-- **Names of one digit sort by version.** -/
theorem memberVersion_lt_of_le {n m : Bytes} (hnames : NameFamilies names)
    (hn : n ∈ names) (hm : m ∈ names) (hne : n ≠ m) (hle : n ≤ m)
    (hfam : variantFamilyBase n = variantFamilyBase m) (hn10 : memberVersion n < 10)
    (hm10 : memberVersion m < 10) : memberVersion n < memberVersion m := by
  rcases hp : parseVersionedFieldName n with - | p
  · rcases hq : parseVersionedFieldName m with - | q
    · rw [variantFamilyBase_of_none hp, variantFamilyBase_of_none hq] at hfam
      exact absurd hfam hne
    · rw [memberVersion_of_none hp, memberVersion_of_parse hq]
      obtain ⟨-, -, -, htwo, -⟩ := parseVersionedFieldName_spec hq
      exact htwo
  · obtain ⟨t, hprinted⟩ := hnames.printed n hn p hp
    rw [variantFamilyBase_of_parse hp] at hfam
    rcases hq : parseVersionedFieldName m with - | q
    · -- the base itself is not behind one of its versions
      rw [variantFamilyBase_of_none hq] at hfam
      rw [hprinted, ← hfam, ← append_nil p.base] at hle
      simp only [makeVersionedFieldName, append_assoc, append_le_append_left_iff] at hle
      simp [marker] at hle
    · obtain ⟨u, hprinted'⟩ := hnames.printed m hm q hq
      rw [variantFamilyBase_of_parse hq] at hfam
      rw [memberVersion_of_parse hp] at hn10 ⊢
      rw [memberVersion_of_parse hq] at hm10 ⊢
      have hversions : p.version ≠ q.version := by
        intro heq
        refine hne (hnames.versions n hn m hm (p.base, p.version) ?_ ?_)
        · rw [baseAndVersion, hp]
          rfl
        · rw [baseAndVersion, hq, Option.map_some, ← hfam, ← heq]
      rw [hprinted, hprinted', ← hfam] at hle
      simp only [makeVersionedFieldName, append_assoc, append_le_append_left_iff,
        decimal_of_lt_ten hn10, decimal_of_lt_ten hm10, cons_append,
        cons_le_cons_iff] at hle
      refine lt_of_le_of_ne ?_ hversions
      rcases hle with hlt | ⟨heq, -⟩
      · rw [UInt8.lt_iff_toNat_lt] at hlt
        simp at hlt
        omega
      · have hnat := congrArg UInt8.toNat heq
        simp at hnat
        omega

/-- **Sorting keeps version order among numbers of one digit.** -/
theorem alphabetize_ordered (hD : ∀ v, D v → v < 10) :
    t.Forall (OrderedNode D) → (alphabetize t).Forall (OrderedNode D) := by
  refine levelMap_alphabetize.all (fun _ => trivial) id (fun _ => Option.some_ne_none _) ?_
  rintro fields ⟨hlevel, -⟩
  have hmapped := hlevel.mapType fun _ => levelMap_alphabetize.numericLike
  have hsorted := hmapped.perm (sortFields_perm hmapped.names.nodup).symm
  refine ⟨hsorted, ?_⟩
  have hle := (sortFields_sorted (fields.map (FieldOf.mapType alphabetize))).and
    hsorted.names.nodup
  refine hle.imp_of_mem ?_
  intro n m hn hm hnm hfam hDn hDm
  exact memberVersion_lt_of_le hsorted.names hn hm hnm.2 hnm.1 hfam (hD _ hDn) (hD _ hDm)

/-! ### Reachable states -/

/-- A canonical schema whose levels are all in version order. -/
structure LogicalSchema.OrderedBy (D : Nat → Prop) (schema : LogicalSchema) : Prop where
  canonical : schema.Canonical
  ordered : (LogicalType.struct schema.fields).Forall (OrderedNode D)

/-- **The order of reachable states**, for every set of numbers that sorting respects. -/
theorem reachable_ordered {D : Nat → Prop}
    {Admits : LogicalSchema → SchemaRegistryMergeInput → Prop}
    (hadmits : ∀ previous input, Admits previous input → InferredInput previous input ∧
      (input.fieldOrder = .alphabetically → ∀ v, D v → v < 10))
    {schema : LogicalSchema} (h : ReachableBy Admits schema) : schema.OrderedBy D := by
  refine ReachableBy.invariant ?_ ?_ h
  · have hempty : LogicalSchema.Inferred ⟨[]⟩ := by decide
    exact ⟨hempty.canonical,
      forall_struct.mpr ⟨⟨InferredLevel.familyLevel ⟨by simp, by simp, by simp⟩, .nil⟩, by simp⟩⟩
  · rintro previous input ⟨hcanonical, hordered⟩ hadmitted hne
    obtain ⟨⟨hinferred, hkey⟩, hsort⟩ := hadmits previous input hadmitted
    refine ⟨additiveMerge_canonical hne hkey hcanonical hinferred, ?_⟩
    have hinvariant := orderInvariant D ((wrapperKey_of_ne_nil hne).symm ▸ hkey)
    -- sorting, if it is asked for
    have happly : ∀ fields, (LogicalType.struct fields).Forall (OrderedNode D) →
        (LogicalType.struct (applyOrder input.fieldOrder ⟨fields⟩).fields).Forall
          (OrderedNode D) := by
      intro fields hfields
      rcases horder : input.fieldOrder with - | -
      · show (LogicalType.struct (reorderSchemaFields ⟨fields⟩ none .alphabetically).fields).Forall
          _
        rw [reorderSchemaFields_alphabetically]
        exact alphabetize_ordered (hsort horder) hfields
      · exact hfields
    have hnormal := hinferred.canonical.normalize_eq
    unfold additiveMerge
    split
    · dsimp only
      rw [hnormal, hnormal]
      exact happly _ (hinferred.mono hinvariant.initial)
    · dsimp only
      rw [hnormal, hcanonical.normalize_eq]
      apply happly
      exact normalize_ordered (hinvariant.mergeFields [] hinferred hordered)

/-- Inputs of a run that never sorts. -/
def UnsortedInput (previous : LogicalSchema) (input : SchemaRegistryMergeInput) : Prop :=
  InferredInput previous input ∧ input.fieldOrder = .schemaContractFirst

/-- Every version number of a schema has one digit. -/
def LogicalSchema.OneDigitVersions (schema : LogicalSchema) : Prop :=
  (LogicalType.struct schema.fields).Forall fun
    | .struct fields => ∀ f ∈ fields, memberVersion f.name < 10
    | _ => True

theorem OrderedNode.all (h : OrderedNode D t)
    (hD : ∀ fields, t = .struct fields → ∀ f ∈ fields, D (memberVersion f.name)) :
    OrderedNode (fun _ => True) t := by
  rcases t with k | fields | value
  · trivial
  · refine ⟨h.1, h.2.imp_of_mem ?_⟩
    intro n m hn hm hnm hfam _ _
    obtain ⟨f, hf, rfl⟩ := mem_map.mp hn
    obtain ⟨g, hg, rfl⟩ := mem_map.mp hm
    exact hnm hfam (hD fields rfl f hf) (hD fields rfl g hg)
  · exact h

/-- **When the levels of a reachable state are in version order**: nothing was ever
sorted, or no number has two digits. -/
theorem reachable_inOrder {schema : LogicalSchema} (h : Reachable schema)
    (horder : ReachableBy UnsortedInput schema ∨ schema.OneDigitVersions) :
    schema.OrderedBy fun _ => True := by
  rcases horder with hunsorted | hdigits
  · refine reachable_ordered ?_ hunsorted
    rintro previous input ⟨hinput, hfirst⟩
    refine ⟨hinput, fun hsort => ?_⟩
    rw [hfirst] at hsort
    cases hsort
  · obtain ⟨hcanonical, hordered⟩ := reachable_ordered (D := (· < 10))
      (fun _ _ hinput => ⟨hinput, fun _ _ hlt => hlt⟩) h
    refine ⟨hcanonical, ?_⟩
    intro t ht
    refine (hordered t ht).all ?_
    rintro fields rfl
    exact hdigits _ ht

/-! ### The turns of a merge -/

/-- One turn of the loop of `merge_fields`: the level so far, the incoming field and
the path of the level. -/
structure MergeTurn where
  out : List LogicalField
  incoming : LogicalField
  parentPath : Bytes

/-- The path of the incoming field. -/
def MergeTurn.path (turn : MergeTurn) : Bytes :=
  joinPath turn.parentPath (sourceSegmentForOutput turn.incoming.name)

/-- Merging `t` into `c` at a path merges the fields `fs` into the fields `bs` at
another: both are structs, or the structs are elements of lists. -/
inductive StructsMeet : LogicalType → LogicalType → Bytes → List LogicalField → List LogicalField →
    Bytes → Prop
  | structs (bs fs : List LogicalField) (path : Bytes) :
      StructsMeet (.struct bs) (.struct fs) path bs fs path
  | enter {e : LogicalType} {gs bs fs : List LogicalField} {path path' : Bytes}
      (h : StructsMeet e (.struct gs) (path ++ bytes "[]") bs fs path') :
      StructsMeet (.list (some e)) (.struct gs) path bs fs path'
  | elements {e t : LogicalType} {bs fs : List LogicalField} {path path' : Bytes}
      (h : StructsMeet e t (path ++ bytes "[]") bs fs path') :
      StructsMeet (.list (some e)) (.list (some t)) path bs fs path'

/-- **The turns of merging `incoming` into `base`**: those of the loop, and those of
merging the type of an incoming field into a member of its family. -/
inductive TurnOf (key : Bytes) : List LogicalField → List LogicalField → Bytes → MergeTurn → Prop
  | loop (base pre : List LogicalField) (f : LogicalField) (post : List LogicalField)
      (path : Bytes) :
      TurnOf key base (pre ++ f :: post) path ⟨(mergeFields key base pre path).1, f, path⟩
  | nested {base incoming bs fs : List LogicalField} {path path' : Bytes} {outer inner : MergeTurn}
      {g : LogicalField} {c t : LogicalType} (houter : TurnOf key base incoming path outer)
      (hg : g ∈ outer.out) (hfam : familyBaseName g = familyBaseName outer.incoming)
      (hc : g.type = some c) (ht : outer.incoming.type = some t)
      (hmeets : StructsMeet c t outer.path bs fs path') (hinner : TurnOf key bs fs path' inner) :
      TurnOf key base incoming path inner

theorem StructsMeet.forall {c : LogicalType} {path path' : Bytes} {bs fs : List LogicalField}
    {P Q : LogicalType → Prop} (h : StructsMeet c t path bs fs path') (hc : c.Forall P)
    (ht : t.Forall Q) : (LogicalType.struct bs).Forall P ∧ (LogicalType.struct fs).Forall Q := by
  induction h with
  | structs => exact ⟨hc, ht⟩
  | enter _ ih => exact ih (forall_listSome.mp hc).2 ht
  | elements _ ih => exact ih (forall_listSome.mp hc).2 (forall_listSome.mp ht).2

/-- What holds of every turn: its level is in order, and its field is inferred. -/
structure MergeTurn.Sound (turn : MergeTurn) : Prop where
  out : (LogicalType.struct turn.out).Forall (OrderedNode fun _ => True)
  unversioned : parseVersionedFieldName turn.incoming.name = none
  type : ∀ t, turn.incoming.type = some t → t.Forall InferredNode

/-- **All turns of a merge are sound**, if the merge starts in order. -/
theorem TurnOf.sound (hkey : parseVersionedFieldName (wrapperKey key) = none)
    {base incoming : List LogicalField} {path : Bytes} {turn : MergeTurn}
    (h : TurnOf key base incoming path turn)
    (hbase : (LogicalType.struct base).Forall (OrderedNode fun _ => True))
    (hincoming : (LogicalType.struct incoming).Forall InferredNode) : turn.Sound := by
  induction h with
  | loop base pre f post path =>
    obtain ⟨hlevel, hnested⟩ := forall_struct.mp hincoming
    have hmem : f ∈ pre ++ f :: post := by simp
    refine ⟨?_, InferredLevel.unversioned hlevel f hmem, hnested f hmem⟩
    refine (orderInvariant _ hkey).mergeFields path ?_ hbase
    -- the fields before `f` are inferred as well
    refine forall_struct.mpr ⟨⟨?_, ?_, ?_⟩, fun g hg => hnested g (mem_append_left _ hg)⟩
    · exact fun g hg => InferredLevel.typed hlevel g (mem_append_left _ hg)
    · have hnodup := InferredLevel.nodup hlevel
      rw [map_append] at hnodup
      exact hnodup.of_append_left
    · exact fun g hg => InferredLevel.unversioned hlevel g (mem_append_left _ hg)
  | nested _ hg _ hc ht hmeets _ ihouter ihinner =>
    have houter := ihouter hbase hincoming
    obtain ⟨hbs, hfs⟩ :=
      hmeets.forall ((forall_struct.mp houter.out).2 _ hg _ hc) (houter.type _ ht)
    exact ihinner hbs hfs

/-! ### The member that is evolved -/

/-- **The turn evolves the newest compatible member**: if the field of the incoming
name refuses the type, no member of the family has exactly it and some member takes
it, then the one that changes has the highest version of all that take it. -/
def MergeTurn.EvolvesNewest (key : Bytes) (turn : MergeTurn) : Prop :=
  ∀ t, turn.incoming.type = some t →
    (∀ g ∈ turn.out, g.name = turn.incoming.name → ∀ c, g.type = some c →
      mergeTypes key c t turn.path = none) →
    (∀ g ∈ turn.out, familyBaseName g = familyBaseName turn.incoming → g.type ≠ some t) →
    (∃ g ∈ turn.out, familyBaseName g = familyBaseName turn.incoming ∧
      ∃ c, g.type = some c ∧ (mergeTypes key c t turn.path).isSome) →
    ∃ i g c r, turn.out[i]? = some g ∧ familyBaseName g = familyBaseName turn.incoming ∧
      g.type = some c ∧ mergeTypes key c t turn.path = some r ∧
      (∀ x ∈ turn.out, familyBaseName x = familyBaseName turn.incoming →
        ∀ d, x.type = some d → (mergeTypes key d t turn.path).isSome →
        memberVersion x.name ≤ memberVersion g.name) ∧
      mergeField key turn.out turn.incoming turn.parentPath =
        (turn.out.set i { g with type := some r.1 },
          promotionDrifts turn.path g.name c r.1 r.2)

/-- A sound turn evolves the newest compatible member. -/
theorem MergeTurn.Sound.evolvesNewest {turn : MergeTurn} (h : turn.Sound) :
    turn.EvolvesNewest key := by
  obtain ⟨out, f, parentPath⟩ := turn
  obtain ⟨⟨hlevel, horder⟩, -⟩ := forall_struct.mp h.out
  intro t ht hown hinexact hcompatible
  have hstep := mergeField_cases key out f parentPath
  cases hr : mergeField key out f parentPath with
  | mk fields drifts =>
  rw [hr] at hstep
  cases hstep with
  | untyped hg hname hnone =>
    rcases hnone with hnone | hnone
    · exact absurd (hnone.symm.trans ht) (by simp)
    · exact absurd hnone (hlevel.typed _ (mem_of_getElem? hg))
  | own ht' hg hname hc hq =>
    cases ht.symm.trans ht'
    have hnone := hown _ (mem_of_getElem? hg) hname _ hc
    exact absurd (hnone.symm.trans hq) (by simp)
  | reused ht' hprobes hg hfam hskip hexact =>
    cases ht.symm.trans ht'
    exact absurd hexact (hinexact _ (mem_of_getElem? hg) hfam)
  | @newest t' skipped i g c q ht' hprobes hg hfam hskip hc hq hnewer hinexact' =>
    cases ht.symm.trans ht'
    refine ⟨i, g, c, q, hg, hfam, hc, hq, ?_, rfl⟩
    intro x hx hxfam d hd htakes
    obtain ⟨j, hj⟩ := getElem?_of_mem hx
    obtain ⟨r, hr⟩ := Option.isSome_iff_exists.mp htakes
    rcases lt_trichotomy j i with hlt | rfl | hgt
    · -- an earlier position has a lower version
      obtain ⟨hj', hjx⟩ := List.getElem?_eq_some_iff.mp hj
      obtain ⟨hi', hig⟩ := List.getElem?_eq_some_iff.mp hg
      have hpair := pairwise_iff_getElem.mp horder j i (by simpa using hj')
        (by simpa using hi') hlt
      simp only [getElem_map, hjx, hig] at hpair
      exact (hpair (hxfam.trans hfam.symm) trivial trivial).le
    · rw [hg] at hj
      cases hj
      exact le_rfl
    · -- a later position is the refusing one or was probed before
      have hnone := hprobes.fails hj hd fun hskip => hnewer j x hgt hj hxfam hskip d hd
      exact absurd (hnone.symm.trans hr) (by simp)
  | added hfresh hnew =>
    obtain ⟨g, hg, hfam, -⟩ := hcompatible
    have hmem := hlevel.names.family_mem (mem_map_of_mem hg)
    rw [show variantFamilyBase g.name = f.name from
      hfam.trans (variantFamilyBase_of_none h.unversioned)] at hmem
    exact absurd hmem hfresh
  | @variant t' skipped previous ht' hprobes hfail =>
    cases ht.symm.trans ht'
    obtain ⟨g, hg, hfam, c, hc, htakes⟩ := hcompatible
    obtain ⟨j, hj⟩ := getElem?_of_mem hg
    obtain ⟨r, hr⟩ := Option.isSome_iff_exists.mp htakes
    have hnone := hprobes.fails hj hc fun hskip => (hfail j g hj hfam hskip).2 c hc
    exact absurd (hnone.symm.trans hr) (by simp)

/-- **The newest compatible version is the one that is evolved**, at every level and
in every turn of a merge into a reachable registry whose version numbers have one
digit, or which was never sorted. -/
theorem newest_version_evolves (schema : LogicalSchema) (input : SchemaRegistryMergeInput)
    (hreach : Reachable schema)
    (horder : ReachableBy UnsortedInput schema ∨ schema.OneDigitVersions)
    (hinput : InferredInput schema input) (hkey : input.defaultKeyName ≠ []) {turn : MergeTurn}
    (hturn : TurnOf input.defaultKeyName (normalizeIntegerFloatSchema schema).fields
      (normalizeIntegerFloatSchema input.inferredSchema).fields [] turn) :
    turn.EvolvesNewest input.defaultKeyName := by
  obtain ⟨hcanonical, hordered⟩ := reachable_inOrder hreach horder
  obtain ⟨hinferred, hunversioned⟩ := hinput
  rw [hcanonical.normalize_eq, hinferred.canonical.normalize_eq] at hturn
  have hwrapper := (wrapperKey_of_ne_nil hkey).symm ▸ hunversioned
  exact (hturn.sound hwrapper hordered hinferred).evolvesNewest

/-! ### A sample run -/

/-- The registry after a column `a` was observed with one type after the other. -/
def sampleRun (order : FieldOrderPolicy) (types : List LogicalType) : LogicalSchema :=
  types.foldl (fun schema t =>
    (additiveMerge (bytes "default_key") order schema ⟨[sampleField "a" t]⟩).1) ⟨[]⟩

theorem reachableBy_sampleRun {Admits : LogicalSchema → SchemaRegistryMergeInput → Prop}
    {order : FieldOrderPolicy} {types : List LogicalType}
    (h : ∀ t ∈ types, ∀ previous, Admits previous (sampleInput order [sampleField "a" t])) :
    ReachableBy Admits (sampleRun order types) := by
  induction types using reverseRecOn with
  | nil => exact .refl
  | append_singleton types t ih =>
    rw [sampleRun, foldl_append, foldl_cons, foldl_nil]
    refine Relation.ReflTransGen.tail (ih fun u hu => h u (mem_append_left _ hu)) ?_
    exact ⟨.ok [], sampleInput order [sampleField "a" t], _, rfl,
      h t (mem_append_right _ (mem_singleton_self t)) _, rfl, rfl⟩

theorem inferredInput_sample {order : FieldOrderPolicy}
    (h : LogicalSchema.Inferred ⟨[sampleField "a" t]⟩) (previous : LogicalSchema) :
    InferredInput previous (sampleInput order [sampleField "a" t]) :=
  ⟨h, (by decide : parseVersionedFieldName (bytes "default_key") = none)⟩

/-- A list of lists of integers, and one level less. -/
def sampleMatrix : LogicalType := .list (some (.list (some (.scalar .int64))))

@[inherit_doc sampleMatrix]
def sampleVector : LogicalType := .list (some (.scalar .int64))

theorem newest_version_evolves_sample :
    MergeTurn.EvolvesNewest (bytes "default_key")
      ⟨[sampleField "a" (.scalar .bool), sampleField "a_v2_integer_array" sampleVector,
          sampleField "a_v3_integer_array_array" sampleMatrix],
        sampleField "a" (.scalar .float64), []⟩ :=
  have hinferred : ∀ t ∈ [.scalar .bool, sampleVector, sampleMatrix],
      LogicalSchema.Inferred ⟨[sampleField "a" t]⟩ := by decide
  newest_version_evolves
    (sampleRun .schemaContractFirst [.scalar .bool, sampleVector, sampleMatrix])
    (sampleInput .schemaContractFirst [sampleField "a" (.scalar .float64)])
    (reachableBy_sampleRun fun t ht => inferredInput_sample (hinferred t ht))
    (.inl (reachableBy_sampleRun fun t ht previous =>
      ⟨inferredInput_sample (hinferred t ht) previous, rfl⟩))
    (inferredInput_sample (by decide) _) (by decide) (.loop _ [] _ [] [])

/-- The types of ten versions of a column. -/
def sampleTypes : List LogicalType :=
  [.scalar .bool, .scalar .int64, .scalar .utf8, .scalar .timestampNs, .scalar .date32,
    .scalar .time32s, sampleStruct ["x"], .list (some (.scalar .bool)), sampleVector, sampleMatrix]

/-- **An older version is evolved.**  In a sorted registry with ten versions of `a`,
a float goes into version 9, a list of integers, although version 10, a list of
lists of integers, takes it as well. -/
theorem older_version_evolves :
    Reachable (sampleRun .alphabetically sampleTypes) ∧
    sampleField "a_v10_integer_array_array" sampleMatrix
      ∈ (sampleRun .alphabetically sampleTypes).fields ∧
    (mergeTypes (bytes "default_key") sampleMatrix (.scalar .float64) (bytes "a")).isSome ∧
    (sampleRun .alphabetically (sampleTypes ++ [.scalar .float64])).fields =
      (sampleRun .alphabetically sampleTypes).fields.map fun f =>
        if f.name = bytes "a_v9_integer_array" then
          sampleField "a_v9_float_array" (.list (some (.scalar .float64)))
        else f := by
  have hinferred : ∀ t ∈ sampleTypes, LogicalSchema.Inferred ⟨[sampleField "a" t]⟩ := by decide
  refine ⟨reachableBy_sampleRun fun t ht => inferredInput_sample (hinferred t ht), ?_, ?_, ?_⟩
  · decide +kernel
  · decide +kernel
  · decide +kernel

end SchemaSanitizer
