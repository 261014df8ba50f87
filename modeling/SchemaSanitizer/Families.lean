/-
SchemaSanitizer/Families.lean

A merge seen from one version family.  `family b fields` are the members of the
family `b`, in sibling order.

An incoming field only touches its own family: `IncomingStep.frame` is the frame
lemma for one turn of the loop, and `FamilyStep` lists what the turn does to
the family itself (`IncomingStep.familyStep`).  Since the incoming fields of one level
have distinct families, a whole loop does to each family what one turn does, and
nothing to the others (`mergeFields_family`, `mergeFields_frame`).
-/
import SchemaSanitizer.Reachable

namespace SchemaSanitizer

open Lib List

variable {base : Bytes} {fields : List LogicalField} {f : LogicalField}

/-- The members of a version family, in sibling order. -/
def family (base : Bytes) (fields : List LogicalField) : List LogicalField :=
  fields.filter fun f => decide (familyBaseName f = base)

theorem mem_family : f ∈ family base fields ↔ f ∈ fields ∧ familyBaseName f = base := by
  simp [family]

theorem family_append (base : Bytes) (l l' : List LogicalField) :
    family base (l ++ l') = family base l ++ family base l' :=
  filter_append l l'

theorem family_cons_self (h : familyBaseName f = base) (l : List LogicalField) :
    family base (f :: l) = f :: family base l := by
  simp [family, h]

theorem family_cons_of_ne (h : familyBaseName f ≠ base) (l : List LogicalField) :
    family base (f :: l) = family base l := by
  simp [family, h]

theorem family_split {out pre post : List LogicalField} {h : LogicalField}
    (hout : family base out = pre ++ h :: post) :
    ∃ l₁ l₂, out = l₁ ++ h :: l₂ ∧ family base l₁ = pre ∧ family base l₂ = post := by
  obtain ⟨l₁, l', rfl, hpre, htail⟩ := filter_eq_append_iff.mp hout
  obtain ⟨l₂, l₃, rfl, hnone, -, hpost⟩ := filter_eq_cons_iff.mp htail
  refine ⟨l₁ ++ l₂, l₃, by simp, ?_, hpost⟩
  rw [family_append, show family base l₁ = pre from hpre,
    show family base l₂ = [] from filter_eq_nil_iff.mpr hnone, append_nil]

/-! ### Version numbers of one family -/

/-- The version numbers of a family are below the largest `int`. -/
def HasRoom (members : List LogicalField) : Prop :=
  ∀ g ∈ members, ∀ p, parseVersionedFieldName g.name = some p → (p.version : Int) < intMax

instance : DecidablePred HasRoom := fun members =>
  decidable_of_iff (∀ g ∈ members, ∀ p ∈ (parseVersionedFieldName g.name).toList,
      (p.version : Int) < intMax)
    ⟨fun h g hg p hp => h g hg p (Option.mem_toList.mpr hp),
      fun h g hg p hp => h g hg p (Option.mem_toList.mp hp)⟩

theorem nextVersion_le
    (h : HasRoom (family base fields)) : (nextVersion fields base : Int) ≤ intMax := by
  unfold nextVersion
  induction fields using reverseRecOn with
  | nil => exact (by decide : (2 : Int) ≤ intMax)
  | append_singleton fields f ih =>
    rw [family_append] at h
    have hold := ih fun g hg => h g (mem_append_left _ hg)
    rw [foldl_append, foldl_cons, foldl_nil]
    split
    · rename_i p hp
      split
      · rename_i hbase
        have hmem : f ∈ family base [f] :=
          mem_family.mpr ⟨mem_singleton_self f, (variantFamilyBase_of_parse hp).trans hbase⟩
        have hlt := h f (mem_append_right _ hmem) p hp
        omega
      · exact hold
    · exact hold

/-- **A generated name is a version of its family**, as long as the family's base is
not empty and its numbers have not run out. -/
theorem parse_nextVariantName_eq (t : LogicalType)
    (hbase : base ≠ []) (hroom : HasRoom (family base fields)) :
    parseVersionedFieldName (nextVariantName fields base t)
      = some ⟨base, nextVersion fields base, variantSemanticType t⟩ := by
  have hread : ∀ s : LogicalType, parseVersionedFieldName
      (makeVersionedFieldName base (nextVersion fields base) (variantSemanticType s))
        = some ⟨base, nextVersion fields base, variantSemanticType s⟩ := by
    intro s
    rw [parseVersionedFieldName_make_eq base _ (isPrintedSuffix_semantic s),
      if_pos ⟨hbase, two_le_nextVersion fields base, nextVersion_le hroom⟩]
  -- the first candidate is already free, its number being beyond all others
  have hfree : makeVersionedFieldName base (nextVersion fields base) (variantSemanticType t)
      ∉ fields.map FieldOf.name := by
    intro hmem
    obtain ⟨g, hg, hname⟩ := mem_map.mp hmem
    have hlt := version_lt_nextVersion hg (hname ▸ hread t)
    exact lt_irrefl _ hlt
  have hname : nextVariantName fields base t
      = makeVersionedFieldName base (nextVersion fields base) (variantSemanticType t) := by
    unfold nextVariantName
    dsimp only
    rw [firstFree_of_free (by simpa using hfree)]
  rw [hname]
  exact hread t

/-! ### One turn of the loop -/

/-- What an incoming field `f` of type `t` does to its own family. -/
inductive FamilyStep (key path : Bytes) (f : LogicalField) (t : LogicalType) :
    List LogicalField → List LogicalField → Prop
  /-- The column of the same name takes the type. -/
  | own {pre post : List LogicalField} {g : LogicalField} {c : LogicalType} {q : MergedType}
      (hname : g.name = f.name) (hc : g.type = some c) (hr : mergeTypes key c t path = some q) :
      FamilyStep key path f t (pre ++ g :: post) (pre ++ { g with type := some q.1 } :: post)
  /-- It fails, and another member has exactly the type. -/
  | reused {members : List LogicalField} {g h : LogicalField} {c : LogicalType}
      (hg : g ∈ members) (hname : g.name = f.name) (hc : g.type = some c)
      (hfail : mergeTypes key c t path = none) (hh : h ∈ members) (hne : h.name ≠ f.name)
      (hexact : h.type = some t) : FamilyStep key path f t members members
  /-- It fails, and so does every member newer than the one that takes the type. -/
  | newest {pre post : List LogicalField} {g h : LogicalField} {c d : LogicalType}
      {q : MergedType} (hg : g ∈ pre ++ h :: post) (hname : g.name = f.name)
      (hc : g.type = some c) (hfail : mergeTypes key c t path = none) (hne : h.name ≠ f.name)
      (hd : h.type = some d) (hr : mergeTypes key d t path = some q)
      (hnewer : ∀ x ∈ post, ∀ c, x.type = some c → mergeTypes key c t path = none) :
      FamilyStep key path f t (pre ++ h :: post) (pre ++ { h with type := some q.1 } :: post)
  /-- The family is new. -/
  | added : FamilyStep key path f t [] [f]
  /-- Every member fails. -/
  | variant {members : List LogicalField} {g : LogicalField} {name : Bytes} (hg : g ∈ members)
      (hname : g.name = f.name)
      (hfail : ∀ x ∈ members, ∀ c, x.type = some c → mergeTypes key c t path = none) :
      FamilyStep key path f t members (members ++ [⟨name, some t, true⟩])

section Step

variable {key path : Bytes} {f : LogicalField} {out : List LogicalField} {r : MergedFields}

/-- **Frame lemma for one turn**: the other families are unchanged. -/
theorem IncomingStep.frame (h : IncomingStep key path f out r) (hnil : familyBaseName f ≠ [])
    (hroom : HasRoom (family (familyBaseName f) out))
    (hbase : base ≠ familyBaseName f) : family base r.1 = family base out := by
  -- overwriting a member of one family, or appending one, is not seen by another
  have hset : ∀ {i : Nat} {g : LogicalField} {t : LogicalType}, out[i]? = some g →
      familyBaseName g = familyBaseName f →
      family base (out.set i { g with type := some t }) = family base out := by
    intro i g t hg hfam
    obtain ⟨pre, post, hout, -, hsets⟩ := split_at hg
    have hne : familyBaseName g ≠ base := fun he => hbase (he.symm.trans hfam)
    rw [hsets, hout, family_append, family_append, family_cons_of_ne hne,
      family_cons_of_ne (f := { g with type := some t }) hne]
  have happend : ∀ g : LogicalField, familyBaseName g = familyBaseName f →
      family base (out ++ [g]) = family base out := by
    intro g hfam
    have hne : familyBaseName g ≠ base := fun he => hbase (he.symm.trans hfam)
    rw [family_append, family_cons_of_ne hne]
    exact append_nil _
  cases h with
  | untyped => rfl
  | own ht hg hgname hc hr =>
    refine hset hg ?_
    rw [familyBaseName, hgname, familyBaseName]
  | reused => rfl
  | newest ht hprobes hg hfam hskip hc hr hnewer hinexact => exact hset hg hfam
  | added hfresh hnew => exact happend f rfl
  | variant ht hprobes hfail =>
    exact happend _ (variantFamilyBase_of_parse (parse_nextVariantName_eq _ hnil hroom))

/-- **One turn of the loop, seen from its own family.** -/
theorem IncomingStep.familyStep (h : IncomingStep key path f out r) (hout : FamilyLevel out)
    {t : LogicalType} (ht : f.type = some t) (hname : parseVersionedFieldName f.name = none)
    (hnil : f.name ≠ []) (hroom : HasRoom (family f.name out)) :
    FamilyStep key path f t (family f.name out) (family f.name r.1) := by
  have hself : familyBaseName f = f.name := variantFamilyBase_of_none hname
  have hfamily : ∀ {g : LogicalField}, g.name = f.name → familyBaseName g = f.name := by
    intro g hg
    rw [familyBaseName, hg]
    exact hself
  -- a probe of the family means that its own column fails
  have hprobed : ∀ {skipped : Option Nat} {u : LogicalType}, Probes key path f u out skipped →
      ∃ i g c, skipped = some i ∧ out[i]? = some g ∧ g ∈ family f.name out ∧
        g.name = f.name ∧ g.type = some c ∧ mergeTypes key c u path = none := by
    intro skipped u hp
    cases hp with
    | @failed i g c hg hgname hc hfail =>
      exact ⟨i, g, c, rfl, hg, mem_family.mpr ⟨mem_of_getElem? hg, hfamily hgname⟩,
        hgname, hc, hfail⟩
    | absent _ hversioned _ =>
      exact absurd (by rw [versionedFieldBase, hname]) hversioned
  have hother : ∀ {i j : Nat} {g h : LogicalField}, out[i]? = some g → out[j]? = some h →
      some i ≠ some j → g.name = f.name → h.name ≠ f.name := by
    intro i j g h hg hh hij hgname hhname
    have hi : i < (out.map FieldOf.name).length := by
      rw [length_map]
      exact (List.getElem?_eq_some_iff.mp hg).1
    refine hij (congrArg some ((getElem?_inj hi hout.names.nodup).mp ?_))
    simp [hg, hh, hgname, hhname]
  cases h with
  | @untyped i g hg hgname hnone =>
    rcases hnone with hnone | hnone
    · rw [ht] at hnone
      cases hnone
    · exact absurd hnone (hout.typed g (mem_of_getElem? hg))
  | @own i g c u q hu hg hgname hc hr =>
    cases ht.symm.trans hu
    obtain ⟨pre, post, rfl, -, hset⟩ := split_at hg
    have hfam := hfamily hgname
    rw [hset, family_append, family_append, family_cons_self hfam,
      family_cons_self (f := { g with type := some q.1 }) hfam]
    exact .own hgname hc hr
  | @reused u skipped j h hu hprobes hh hfam hskip hexact =>
    cases ht.symm.trans hu
    obtain ⟨i, g, c, rfl, hg, hmem, hgname, hc, hfail⟩ := hprobed hprobes
    exact .reused hmem hgname hc hfail
      (mem_family.mpr ⟨mem_of_getElem? hh, hfam.trans hself⟩)
      (hother hg hh hskip hgname) hexact
  | @newest u skipped j h d q hu hprobes hh hfam hskip hd hr hnewer hinexact =>
    cases ht.symm.trans hu
    obtain ⟨i, g, c, rfl, hg, hmem, hgname, hc, hfail⟩ := hprobed hprobes
    have hne := hother hg hh hskip hgname
    obtain ⟨pre, post, hsplit, hlen, hset⟩ := split_at hh
    have hfam' : familyBaseName h = f.name := hfam.trans hself
    have hold : family f.name out = family f.name pre ++ h :: family f.name post := by
      rw [hsplit, family_append, family_cons_self hfam']
    rw [hset, family_append, family_cons_self (f := { h with type := some q.1 }) hfam', hold]
    rw [hold] at hmem
    refine .newest hmem hgname hc hfail hne hd hr ?_
    intro x hx d' hd'
    obtain ⟨hxpost, hxfam⟩ := mem_family.mp hx
    obtain ⟨k, hk⟩ := getElem?_of_mem hxpost
    have hxk : out[j + 1 + k]? = some x := by
      rw [hsplit, ← hlen, getElem?_append_right (by omega)]
      rw [show pre.length + 1 + k - pre.length = k + 1 by omega]
      exact hk
    -- the newer member may be the own column, which fails as well
    refine hprobes.fails hxk hd' fun hskip => ?_
    exact hnewer (j + 1 + k) x (by omega) hxk (hxfam.trans hself.symm) hskip d' hd'
  | added hfresh =>
    have hnone : family f.name out = [] := by
      rw [family, filter_eq_nil_iff]
      intro g hg hfam
      have hbase := hout.names.family_mem (mem_map_of_mem hg)
      rw [show variantFamilyBase g.name = f.name from of_decide_eq_true hfam] at hbase
      exact hfresh hbase
    rw [family_append, hnone, family_cons_self hself]
    exact .added
  | @variant u skipped previous hu hprobes hfail =>
    cases ht.symm.trans hu
    obtain ⟨i, g, c, rfl, hg, hmem, hgname, hc, hown⟩ := hprobed hprobes
    have hvariant : familyBaseName
        { f with name := nextVariantName out (familyBaseName f) t, nullable := true }
          = f.name := by
      show variantFamilyBase (nextVariantName out (familyBaseName f) t) = f.name
      rw [hself]
      exact variantFamilyBase_of_parse (parse_nextVariantName_eq t hnil hroom)
    rw [family_append, family_cons_self hvariant, ht]
    refine .variant hmem hgname ?_
    intro x hx d hd
    obtain ⟨hxout, hxfam⟩ := mem_family.mp hx
    obtain ⟨k, hk⟩ := getElem?_of_mem hxout
    refine hprobes.fails hk hd fun hskip => ?_
    exact (hfail k x hk (hxfam.trans hself.symm) hskip).2 d hd

end Step

/-! ### The whole loop -/

/-- Incoming fields whose families can be told apart. -/
structure OnePerFamily (fields : List LogicalField) : Prop where
  apart : fields.Pairwise fun f g => familyBaseName f ≠ familyBaseName g
  named : ∀ f ∈ fields, familyBaseName f ≠ []

/-- Merging one field touches only its own family. -/
theorem OnePerFamily.turn (key path : Bytes) {fs out : List LogicalField}
    (hfs : OnePerFamily (f :: fs))
    (hroom : ∀ g ∈ f :: fs, HasRoom (family (familyBaseName g) out)) :
    (∀ base, base ≠ familyBaseName f →
        family base (mergeField key out f path).1 = family base out) ∧
      OnePerFamily fs ∧
      ∀ g ∈ fs, HasRoom (family (familyBaseName g) (mergeField key out f path).1) := by
  obtain ⟨hhead, htail⟩ := pairwise_cons.mp hfs.apart
  have hframe : ∀ base, base ≠ familyBaseName f →
      family base (mergeField key out f path).1 = family base out :=
    fun _ => (mergeField_cases key out f path).frame (hfs.named f mem_cons_self)
      (hroom f mem_cons_self)
  refine ⟨hframe, ⟨htail, fun g hg => hfs.named g (mem_cons_of_mem f hg)⟩, ?_⟩
  intro g hg
  rw [hframe _ (hhead g hg).symm]
  exact hroom g (mem_cons_of_mem f hg)

/-- **Frame lemma for the loop**: a family no incoming field belongs to is unchanged. -/
theorem mergeFields_frame (key path : Bytes) : ∀ {fs out : List LogicalField}, OnePerFamily fs →
    (∀ f ∈ fs, HasRoom (family (familyBaseName f) out)) → ∀ {base : Bytes},
    (∀ f ∈ fs, base ≠ familyBaseName f) →
    family base (mergeFields key out fs path).1 = family base out
  | [], out, _, _, base, _ => rfl
  | f :: fs, out, hfs, hroom, base, hbase => by
    obtain ⟨hframe, hrest, hroom'⟩ := hfs.turn key path hroom
    have htail := mergeFields_frame key path hrest hroom'
      fun g hg => hbase g (mem_cons_of_mem f hg)
    exact htail.trans (hframe base (hbase f mem_cons_self))

/-- Inferred fields with names that are not empty. -/
structure NamedLevel (fields : List LogicalField) : Prop extends InferredLevel fields where
  nonempty : ∀ f ∈ fields, f.name ≠ []

section Named

variable {f : LogicalField} {fs out : List LogicalField}

theorem NamedLevel.tail (h : NamedLevel (f :: fs)) : NamedLevel fs where
  typed := fun g hg => h.typed g (mem_cons_of_mem f hg)
  nodup := (nodup_cons.mp h.nodup).2
  unversioned := fun g hg => h.unversioned g (mem_cons_of_mem f hg)
  nonempty := fun g hg => h.nonempty g (mem_cons_of_mem f hg)

theorem NamedLevel.familyBaseName_eq (h : NamedLevel fs) (hf : f ∈ fs) :
    familyBaseName f = f.name := variantFamilyBase_of_none (h.unversioned f hf)

theorem NamedLevel.onePerFamily (h : NamedLevel fs) : OnePerFamily fs where
  apart := by
    refine (pairwise_map.mp h.nodup).imp_of_mem ?_
    intro f g hf hg hne
    rwa [h.familyBaseName_eq hf, h.familyBaseName_eq hg]
  named := by
    intro f hf
    rw [h.familyBaseName_eq hf]
    exact h.nonempty f hf

theorem NamedLevel.room (h : NamedLevel fs) (hroom : ∀ g ∈ fs, HasRoom (family g.name out)) :
    ∀ g ∈ fs, HasRoom (family (familyBaseName g) out) := by
  intro g hg
  rw [h.familyBaseName_eq hg]
  exact hroom g hg

end Named

/-- **The loop, seen from one family**: what the incoming field of its name does. -/
theorem mergeFields_family {key path : Bytes} :
    ∀ {fs out : List LogicalField}, NamedLevel fs → FamilyLevel out →
    (∀ f ∈ fs, HasRoom (family f.name out)) → ∀ f ∈ fs, ∀ t, f.type = some t →
    FamilyStep key (joinPath path (sourceSegmentForOutput f.name)) f t (family f.name out)
      (family f.name (mergeFields key out fs path).1)
  | f :: fs, out, hfs, hout, hroom, g, hg, t, ht => by
    have hf : f ∈ f :: fs := mem_cons_self
    obtain ⟨hframe, hrest, hroom'⟩ := hfs.onePerFamily.turn key path (hfs.room hroom)
    obtain ⟨hhead, -⟩ := pairwise_cons.mp hfs.onePerFamily.apart
    have hlevel := (mergeField_step key out f path).familyLevel hout (hfs.typed f hf)
      (hfs.unversioned f hf)
    show FamilyStep key _ g t _ (family g.name
      (mergeFields key (mergeField key out f path).1 fs path).1)
    rcases mem_cons.mp hg with rfl | hg
    · -- its own turn, and then the turns of other families
      rw [← hfs.familyBaseName_eq hf, mergeFields_frame key path hrest hroom' hhead,
        hfs.familyBaseName_eq hf]
      exact (mergeField_cases key out g path).familyStep hout ht (hfs.unversioned g hf)
        (hfs.nonempty g hf) (hroom g hf)
    · have hself := hfs.tail.familyBaseName_eq hg
      rw [← hframe g.name (hself ▸ (hhead g hg).symm)]
      refine mergeFields_family hfs.tail hlevel ?_ g hg t ht
      intro x hx
      rw [← hfs.tail.familyBaseName_eq hx]
      exact hroom' x hx

end SchemaSanitizer
