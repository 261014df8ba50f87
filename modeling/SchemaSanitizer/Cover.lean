/-
SchemaSanitizer/Cover.lean

When does an incoming field change nothing?  A type absorbs another one if the merge
returns it unchanged and without events (`Absorbs`).

* `mergeField_covered`: an incoming field changes nothing if its family covers it:
  its own column absorbs the type, or that column fails and either some other member
  has exactly the type or the newest member that takes it absorbs it.
* `absorbs_finish`: an inferred type is absorbed by its own finished form.
* `FamilyStep.covered`: after one merge, and after finishing, every family covers
  the field that was merged into it.
-/
import SchemaSanitizer.Finish

namespace SchemaSanitizer

open List

variable {key path : Bytes} {order : FieldOrderPolicy}

/-- Merging `t` into `base` changes nothing. -/
def Absorbs (key : Bytes) (t : LogicalType) (path : Bytes) (base : LogicalType) : Prop :=
  mergeTypes key base t path = some (base, [])

/-! ### Covered fields -/

variable {out : List LogicalField} {g f : LogicalField} {c t : LogicalType} {i : Nat}

/-- The family around a column that fails on `t` lets `t` pass without a change: a member
has exactly that type, or the newest member that takes it absorbs it. -/
inductive Passes (key path : Bytes) (f : LogicalField) (t : LogicalType)
    (members : List LogicalField) : Prop
  | reused {h : LogicalField} (hh : h ∈ members) (hne : h.name ≠ f.name)
      (hexact : h.type = some t)
  | newest {pre post : List LogicalField} {h : LogicalField} {d : LogicalType}
      (hsplit : members = pre ++ h :: post) (hne : h.name ≠ f.name) (hd : h.type = some d)
      (habsorbs : Absorbs key t path d)
      (hnewer : ∀ x ∈ post, ∀ c, x.type = some c → mergeTypes key c t path = none)

/-- The members of a family cover a field of type `t`: its own column absorbs the type,
or fails and leaves it to the others. -/
def Covered (key path : Bytes) (f : LogicalField) (t : LogicalType)
    (members : List LogicalField) : Prop :=
  ∃ g ∈ members, ∃ c, g.name = f.name ∧ g.type = some c ∧
    (Absorbs key t path c ∨ mergeTypes key c t path = none ∧ Passes key path f t members)

theorem promotionDrifts_self (path name : Bytes) (c : LogicalType) :
    promotionDrifts path name c c [] = [] := by
  simp [promotionDrifts]

theorem set_self (hg : out[i]? = some g) (hc : g.type = some c) :
    out.set i { g with type := some c } = out := by
  obtain ⟨n, v, b⟩ := g
  cases hc
  obtain ⟨hi, hget⟩ := List.getElem?_eq_some_iff.mp hg
  rw [← hget, set_getElem_self]

theorem absorbed_step {q : MergedType} (hg : out[i]? = some g) (hc : g.type = some c)
    (hr : mergeTypes key c t path = some q) (habsorbs : Absorbs key t path c) :
    (out.set i { g with type := some q.1 }, promotionDrifts path g.name c q.1 q.2)
      = (out, []) := by
  obtain rfl : q = (c, []) := Option.some.inj (hr.symm.trans habsorbs)
  rw [set_self hg hc, promotionDrifts_self]

theorem Probes.own_fails {skipped : Option Nat} (h : Probes key path f t out skipped)
    (hout : FamilyLevel out) (hg : g ∈ out) (hname : g.name = f.name) (hc : g.type = some c) :
    ∃ i, skipped = some i ∧ out[i]? = some g ∧ mergeTypes key c t path = none := by
  cases h with
  | @failed i g' c' hg' hname' hc' hfail =>
    obtain rfl : g' = g :=
      hout.eq_of_name (mem_of_getElem? hg') hg (hname'.trans hname.symm)
    obtain rfl : c' = c := Option.some.inj (hc'.symm.trans hc)
    exact ⟨i, rfl, hg', hfail⟩
  | absent hfresh _ _ => exact absurd (hname ▸ mem_map_of_mem hg) hfresh

/-- The member a probe evolves absorbs the type, if the family lets it pass: the newest
member that takes the type is the same one. -/
theorem Passes.chosen_absorbs {f : LogicalField} {t : LogicalType}
    (h : Passes key path f t (family f.name out)) {i : Nat} {c : LogicalType}
    {q : MergedType} (hg : out[i]? = some g) (hfam : familyBaseName g = f.name)
    (hc : g.type = some c) (hr : mergeTypes key c t path = some q)
    (hnewer : ∀ j x, i < j → out[j]? = some x → familyBaseName x = f.name → x.name ≠ f.name →
      ∀ c, x.type = some c → mergeTypes key c t path = none)
    (hinexact : ∀ x ∈ family f.name out, x.name ≠ f.name → x.type ≠ some t) :
    Absorbs key t path c := by
  cases h with
  | reused hh hne hexact => exact absurd hexact (hinexact _ hh hne)
  | @newest pre post h d hsplit hne hd habsorbs hpost =>
    obtain ⟨l₁, l₂, hout, -, hl₂⟩ := family_split hsplit
    have hhfam : familyBaseName h = f.name :=
      (mem_family.mp (hsplit ▸ mem_append_right pre mem_cons_self)).2
    have hj : out[l₁.length]? = some h := by simp [hout]
    rcases lt_trichotomy i l₁.length with hlt | heq | hgt
    · -- the member that absorbs the type would be newer than the one chosen
      have hnone := hnewer l₁.length h hlt hj hhfam hne d hd
      rw [habsorbs] at hnone
      cases hnone
    · rw [heq, hj] at hg
      cases hg
      cases hd.symm.trans hc
      exact habsorbs
    · -- the one chosen would be among the newer members, which fail
      have hgpost : g ∈ post := by
        rw [← hl₂]
        refine mem_family.mpr ⟨?_, hfam⟩
        rw [hout, getElem?_append_right (by omega),
          show i - l₁.length = (i - l₁.length - 1) + 1 by omega,
          getElem?_cons_succ] at hg
        exact mem_of_getElem? hg
      rw [hpost g hgpost c hc] at hr
      cases hr

theorem Passes.not_all_fail {f : LogicalField} {members : List LogicalField} {t : LogicalType}
    (h : Passes key path f t members)
    (hfail : ∀ x ∈ members, x.name ≠ f.name →
      x.type ≠ some t ∧ ∀ c, x.type = some c → mergeTypes key c t path = none) : False := by
  cases h with
  | reused hh hne hexact => exact (hfail _ hh hne).1 hexact
  | @newest pre post h d hsplit hne hd habsorbs _ =>
    have hnone := (hfail h (hsplit ▸ mem_append_right pre mem_cons_self) hne).2 d hd
    rw [habsorbs] at hnone
    cases hnone

/-- **A covered field changes nothing.** -/
theorem IncomingStep.covered {r : MergedFields} (h : IncomingStep key path f out r)
    (hout : FamilyLevel out) (ht : f.type = some t) (hname : parseVersionedFieldName f.name = none)
    (hcovered : Covered key path f t (family f.name out)) : r = (out, []) := by
  obtain ⟨own, hown, ownType, hownName, hownType, hcase⟩ := hcovered
  have hmem : own ∈ out := (mem_family.mp hown).1
  have hself : familyBaseName f = f.name := variantFamilyBase_of_none hname
  -- when the family is probed, the own column has failed, and only it is skipped
  have hprobed : ∀ {skipped : Option Nat}, Probes key path f t out skipped →
      Passes key path f t (family f.name out) ∧
        ∀ {j : Nat} {x : LogicalField}, out[j]? = some x → x.name ≠ f.name →
          skipped ≠ some j := by
    intro skipped hprobes
    obtain ⟨k, rfl, hk, hfail⟩ := hprobes.own_fails hout hmem hownName hownType
    refine ⟨?_, ?_⟩
    · rcases hcase with habsorbs | ⟨-, hpasses⟩
      · rw [habsorbs] at hfail
        cases hfail
      · exact hpasses
    · intro j x hx hne hkj
      cases hkj
      rw [hk] at hx
      cases hx
      exact hne hownName
  cases h with
  | untyped => rfl
  | @own i g c u q hu hg hgname hc hr =>
    cases ht.symm.trans hu
    obtain rfl : g = own :=
      hout.eq_of_name (mem_of_getElem? hg) hmem (hgname.trans hownName.symm)
    obtain rfl : c = ownType := Option.some.inj (hc.symm.trans hownType)
    rcases hcase with habsorbs | ⟨hfail, -⟩
    · exact absorbed_step hg hc hr habsorbs
    · rw [hfail] at hr
      cases hr
  | reused => rfl
  | @newest u skipped i g c q hu hprobes hg hfam hskip hc hr hnewer hinexact =>
    cases ht.symm.trans hu
    obtain ⟨hpasses, hother⟩ := hprobed hprobes
    refine absorbed_step hg hc hr
      (hpasses.chosen_absorbs hg (hfam.trans hself) hc hr ?_ ?_)
    · intro j x hij hx hxfam hne
      exact hnewer j x hij hx (hxfam.trans hself.symm) (hother hx hne)
    · intro x hx hne
      obtain ⟨hx, hxfam⟩ := mem_family.mp hx
      obtain ⟨j, hj⟩ := getElem?_of_mem hx
      exact hinexact j x hj (hxfam.trans hself.symm) (hother hj hne)
  | added hfresh => exact absurd (hownName ▸ mem_map_of_mem hmem) hfresh
  | @variant u skipped previous hu hprobes hfail =>
    cases ht.symm.trans hu
    obtain ⟨hpasses, hother⟩ := hprobed hprobes
    refine (hpasses.not_all_fail ?_).elim
    intro x hx hne
    obtain ⟨hx, hxfam⟩ := mem_family.mp hx
    obtain ⟨j, hj⟩ := getElem?_of_mem hx
    exact hfail j x hj (hxfam.trans hself.symm) (hother hj hne)

theorem mergeField_covered {f : LogicalField} (hout : FamilyLevel out)
    {t : LogicalType} (ht : f.type = some t) (hname : parseVersionedFieldName f.name = none)
    (hcovered : Covered key (joinPath path (sourceSegmentForOutput f.name)) f t
      (family f.name out)) : mergeField key out f path = (out, []) :=
  (mergeField_cases key out f path).covered hout ht hname hcovered

/-- **Covered fields change nothing**, one after the other. -/
theorem mergeFields_covered (hout : FamilyLevel out) :
    ∀ {fs : List LogicalField}, InferredLevel fs →
    (∀ f ∈ fs, ∀ t, f.type = some t →
      Covered key (joinPath path (sourceSegmentForOutput f.name)) f t (family f.name out)) →
    mergeFields key out fs path = (out, [])
  | [], _, _ => rfl
  | f :: fs, hfs, hcovered => by
    have hf : f ∈ f :: fs := mem_cons_self
    obtain ⟨t, ht⟩ := Option.ne_none_iff_exists'.mp (hfs.typed f hf)
    have hhead : mergeField key out f path = (out, []) :=
      mergeField_covered hout ht (hfs.unversioned f hf) (hcovered f hf t ht)
    have htail : mergeFields key out fs path = (out, []) := by
      refine mergeFields_covered hout ⟨?_, (nodup_cons.mp hfs.nodup).2, ?_⟩ ?_
      · exact fun g hg => hfs.typed g (mem_cons_of_mem f hg)
      · exact fun g hg => hfs.unversioned g (mem_cons_of_mem f hg)
      · exact fun g hg => hcovered g (mem_cons_of_mem f hg)
    rw [mergeFields, hhead]
    dsimp only
    rw [htail]
    rfl

/-! ### A finished type absorbs itself -/

variable {fields : List LogicalField}

theorem finishField_mem (h : FamilyLevel fields) (hf : f ∈ fields) :
    finishField order f ∈ finishLevel order fields :=
  (finishLevel_perm h).mem_iff.mpr (mem_map_of_mem hf)

theorem covered_of_own (h : FamilyLevel fields) (hg : g ∈ fields) (hname : g.name = f.name)
    (hun : parseVersionedFieldName f.name = none) (hc : g.type = some c)
    (habsorbs : Absorbs key t path (finish order c)) :
    Covered key path f t (family f.name (finishLevel order fields)) := by
  have hgun : parseVersionedFieldName g.name = none := hname ▸ hun
  refine ⟨finishField order g, mem_family.mpr ⟨finishField_mem h hg, ?_⟩, finish order c, ?_, ?_,
    .inl habsorbs⟩
  · rw [familyBaseName_finishField, familyBaseName, variantFamilyBase_of_none hgun]
    exact hname
  · exact (finishField_name hgun).trans hname
  · rw [finishField_type, hc]
    rfl

@[simp] theorem mergeTypes_enter (ht : ∀ v, t ≠ .list v) (e : LogicalType) :
    mergeTypes key (.list (some e)) t path
      = (mergeTypes key e t (path ++ bytes "[]")).map fun r => (.list (some r.1), r.2) := by
  rcases t with k | fs | v
  · rw [mergeTypes_scalar, mergeTypes_scalar]
    rfl
  · rw [mergeTypes_struct, mergeTypes_struct]
    rfl
  · exact absurd rfl (ht v)

/-- **An inferred type is absorbed by its own finished form.** -/
theorem absorbs_finish (key : Bytes) (order : FieldOrderPolicy) (h : t.Forall InferredNode) :
    ∀ path, Absorbs key t path (finish order t) := by
  induction t with
  | scalar k =>
    intro path
    rw [Absorbs, finish_scalar, mergeTypes_scalar]
    simp [mergeScalarInto, mergeScalarKinds]
  | struct fs ih =>
    intro path
    obtain ⟨hlevel, hnested⟩ := forall_struct.mp h
    have hfs : InferredLevel fs := hlevel
    have hcovered : mergeFields key (finishLevel order fs) fs path =
      (finishLevel order fs, []) := by
      refine mergeFields_covered (finishLevel_canonicalLevel hfs.familyLevel).toFamilyLevel hfs ?_
      intro f hf t ht
      exact covered_of_own hfs.familyLevel hf rfl (hfs.unversioned f hf) ht
        (ih f hf t ht (hnested f hf t ht) _)
    rw [Absorbs, finish_struct hfs.familyLevel, mergeTypes_struct, mergeStructInto, hcovered]
  | listNone => exact absurd rfl h.self
  | listSome t ih =>
    intro path
    have habsorbs := ih (forall_listSome.mp h).2 (path ++ bytes "[]")
    rw [Absorbs, finish_list, mergeTypes_list]
    show (mergeTypes key (finish order t) t _).map _ = _
    rw [habsorbs]
    rfl

/-! ### Settled types -/

/-- The version numbers of every level are below the largest `int`. -/
def RoomNode : LogicalType → Prop
  | .struct fields => HasRoom fields
  | _ => True

/-- A base to merge into: canonical, sorted where sorting is asked for, and with room for
new versions. -/
structure Settled (order : FieldOrderPolicy) (t : LogicalType) : Prop where
  canonical : t.Canonical
  sorted : order = .alphabetically → t.Alphabetical
  room : t.Forall RoomNode

theorem Settled.field (h : Settled order (.struct fields))
    {f : LogicalField} (hf : f ∈ fields) {t : LogicalType} (ht : f.type = some t) :
    Settled order t where
  canonical := (forall_struct.mp h.canonical).2 f hf t ht
  sorted := fun ho => (forall_struct.mp (h.sorted ho)).2 f hf t ht
  room := (forall_struct.mp h.room).2 f hf t ht

theorem Settled.element {t : LogicalType} (h : Settled order (.list (some t))) :
    Settled order t where
  canonical := (forall_listSome.mp h.canonical).2
  sorted := fun ho => (forall_listSome.mp (h.sorted ho)).2
  room := (forall_listSome.mp h.room).2

theorem Settled.level (h : Settled order (.struct fields)) :
    FamilyLevel fields := CanonicalLevel.toFamilyLevel (forall_struct.mp h.canonical).1

theorem Settled.finishField_eq (h : Settled order (.struct fields)) (hf : f ∈ fields) :
    finishField order f = f :=
  finishField_eq_self h.canonical h.sorted hf

/-! ### Families after a merge -/

theorem finishField_name_ne {base : Bytes} (hbase : parseVersionedFieldName base = none)
    {x : LogicalField} (hfam : familyBaseName x = base) (hne : x.name ≠ base) :
    (finishField order x).name ≠ base := by
  intro he
  have hbv : baseAndVersion (finishField order x).name = baseAndVersion x.name :=
    baseAndVersion_finishField x
  rw [he, baseAndVersion, hbase] at hbv
  have hun : parseVersionedFieldName x.name = none := Option.map_eq_none_iff.mp hbv.symm
  exact hne ((variantFamilyBase_of_none hun).symm.trans hfam)

section Cover

variable {f : LogicalField} {t : LogicalType} {bs merged : List LogicalField}

section

variable (hbs : Settled order (.struct bs))

include hbs

theorem kept_mem (hmerged : FamilyLevel merged) {base : Bytes} {x : LogicalField}
    (hx : x ∈ family base bs) (hx' : x ∈ family base merged) :
    x ∈ family base (finishLevel order merged) := by
  rw [(family_finishLevel_perm hmerged base).mem_iff]
  refine mem_map.mpr ⟨x, hx', hbs.finishField_eq (mem_family.mp hx).1⟩

/-- A type its own variant refuses is covered by a newer variant of the family. -/
theorem covered_of_newest (hmerged : FamilyLevel merged)
    (hun : parseVersionedFieldName f.name = none) {pre post : List LogicalField} {h : LogicalField}
    {u : LogicalType} (hbefore : family f.name bs = pre ++ h :: post)
    (hafter : family f.name merged = pre ++ { h with type := some u } :: post)
    (hg : g ∈ pre ++ h :: post) (hname : g.name = f.name) (hc : g.type = some c)
    (hfail : mergeTypes key c t path = none) (hne : h.name ≠ f.name)
    (habsorbs : Absorbs key t path (finish order u))
    (hnewer : ∀ x ∈ post, ∀ c, x.type = some c → mergeTypes key c t path = none) :
    Covered key path f t (family f.name (finishLevel order merged)) := by
  have hside : ∀ x, x ∈ pre ∨ x ∈ post → finishField order x = x := by
    intro x hx
    have hmem : x ∈ family f.name bs := by
      rw [hbefore]
      rcases hx with hx | hx
      · exact mem_append_left _ hx
      · exact mem_append_right _ (mem_cons_of_mem h hx)
    exact hbs.finishField_eq (mem_family.mp hmem).1
  have hpre : pre.map (finishField order) = pre :=
    (map_congr_left fun x hx => hside x (.inl hx)).trans (map_id pre)
  have hpost : post.map (finishField order) = post :=
    (map_congr_left fun x hx => hside x (.inr hx)).trans (map_id post)
  -- evolving a member changes no name, so a sorted family stays sorted
  have hsplit : family f.name (finishLevel order merged)
      = pre ++ finishField order { h with type := some u } :: post := by
    rw [family_finishLevel hmerged, hafter, map_append, map_cons, hpre, hpost]
    intro ho
    have hfamily : ((family f.name bs).map FieldOf.name).Pairwise (· ≤ ·) :=
      pairwise_map.mpr
        ((pairwise_map.mp (forall_struct.mp (hbs.sorted ho)).1).filter _)
    rw [hbefore] at hfamily
    rw [hafter]
    simpa using hfamily
  have hhfam : familyBaseName h = f.name :=
    (mem_family.mp (hbefore ▸ mem_append_right pre mem_cons_self)).2
  refine ⟨g, ?_, c, hname, hc, .inr ⟨hfail, .newest hsplit ?_ ?_ habsorbs hnewer⟩⟩
  · rw [hsplit]
    rcases mem_append.mp hg with hg | hg
    · exact mem_append_left _ hg
    · rcases mem_cons.mp hg with he | hg
      · exact absurd (he ▸ hname) hne
      · exact mem_append_right _ (mem_cons_of_mem _ hg)
  · exact finishField_name_ne hun hhfam hne
  · rw [finishField_type]
    rfl

/-- A new version absorbs its own type, wherever it is sorted to: all others fail. -/
theorem covered_of_variant (hmerged : FamilyLevel merged)
    (hun : parseVersionedFieldName f.name = none) {name : Bytes}
    (hafter : family f.name merged = family f.name bs ++ [⟨name, some t, true⟩])
    (hg : g ∈ family f.name bs) (hname : g.name = f.name)
    (hfail : ∀ x ∈ family f.name bs, ∀ c, x.type = some c → mergeTypes key c t path = none)
    (hself : Absorbs key t path (finish order t)) :
    Covered key path f t (family f.name (finishLevel order merged)) := by
  obtain ⟨c, hc⟩ := Option.ne_none_iff_exists'.mp (hbs.level.typed g (mem_family.mp hg).1)
  have hvariant : (⟨name, some t, true⟩ : LogicalField) ∈ family f.name merged := by
    rw [hafter]
    exact mem_append_right _ mem_cons_self
  have hperm : (family f.name (finishLevel order merged)).Perm
      ((family f.name merged).map (finishField order)) := family_finishLevel_perm hmerged f.name
  obtain ⟨pre, post, hsplit⟩ :=
    append_of_mem (hperm.mem_iff.mpr (mem_map_of_mem hvariant))
  have hnames : ((family f.name merged).map FieldOf.name).Nodup :=
    hmerged.names.nodup.sublist (filter_sublist.map _)
  have hne : name ≠ f.name := by
    intro he
    rw [hafter, map_append] at hnames
    refine disjoint_of_nodup_append hnames (mem_map_of_mem hg) ?_
    simp [he, hname]
  refine ⟨g, kept_mem hbs hmerged hg (hafter ▸ mem_append_left _ hg), c, hname, hc,
    .inr ⟨hfail g hg c hc, .newest hsplit ?_ ?_ hself ?_⟩⟩
  · exact finishField_name_ne hun (mem_family.mp hvariant).2 hne
  · rw [finishField_type]
    rfl
  · intro x hx d hd
    have hxin : x ∈ family f.name (finishLevel order merged) := by
      rw [hsplit]
      exact mem_append_right _ (mem_cons_of_mem _ hx)
    rw [hperm.mem_iff, hafter, map_append, mem_append] at hxin
    rcases hxin with hxin | hxin
    · obtain ⟨y, hy, rfl⟩ := mem_map.mp hxin
      rw [hbs.finishField_eq (mem_family.mp hy).1] at hd
      exact hfail y hy d hd
    · -- the new version stands there only once
      rw [map_singleton, mem_singleton] at hxin
      have hlevel : CanonicalLevel (finishLevel order merged) := finishLevel_canonicalLevel hmerged
      have hnodup : ((family f.name (finishLevel order merged)).map FieldOf.name).Nodup :=
        hlevel.names.nodup.sublist (filter_sublist.map _)
      rw [hsplit, map_append, map_cons] at hnodup
      have hnot := (nodup_cons.mp (nodup_append'.mp hnodup).2.1).1
      exact absurd (hxin ▸ mem_map_of_mem hx) hnot

/-- **After a merge, its family covers the incoming field.** -/
theorem FamilyStep.covered
    (hstep : FamilyStep key path f t (family f.name bs) (family f.name merged))
    (hmerged : FamilyLevel merged) (hun : parseVersionedFieldName f.name = none)
    (ht : f.type = some t)
    (hsettles : ∀ g ∈ bs, ∀ c, g.type = some c → ∀ q, mergeTypes key c t path = some q →
      Absorbs key t path (finish order q.1))
    (hself : Absorbs key t path (finish order t)) :
    Covered key path f t (family f.name (finishLevel order merged)) := by
  generalize hbefore : family f.name bs = before at hstep
  generalize hafter : family f.name merged = after at hstep
  have hold : ∀ {x : LogicalField}, x ∈ before → x ∈ family f.name bs := fun hx => hbefore ▸ hx
  have hnew : ∀ {x : LogicalField}, x ∈ after → x ∈ family f.name merged := fun hx => hafter ▸ hx
  cases hstep with
  | @own pre post g c q hname hc hr =>
    have hg := (mem_family.mp (hold (mem_append_right pre mem_cons_self))).1
    have hg' := (mem_family.mp (hnew (mem_append_right pre mem_cons_self))).1
    exact covered_of_own hmerged hg' hname hun rfl (hsettles g hg c hc q hr)
  | @reused _ g h c hg hname hc hfail hh hne hexact =>
    exact ⟨g, kept_mem hbs hmerged (hold hg) (hnew hg), c, hname, hc,
      .inr ⟨hfail, .reused (kept_mem hbs hmerged (hold hh) (hnew hh)) hne hexact⟩⟩
  | @newest pre post g h c d q hg hname hc hfail hne hd hr hnewer =>
    have hh := (mem_family.mp (hold (mem_append_right pre mem_cons_self))).1
    exact covered_of_newest hbs hmerged hun hbefore hafter hg hname hc hfail hne
      (hsettles h hh d hd q hr) hnewer
  | added =>
    have hf := (mem_family.mp (hnew mem_cons_self)).1
    exact covered_of_own hmerged hf rfl hun ht hself
  | @variant _ g name hg hname hfail =>
    subst hbefore
    exact covered_of_variant hbs hmerged hun hafter hg hname hfail hself

end

end Cover

end SchemaSanitizer
