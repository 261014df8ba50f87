/-
SchemaSanitizer/MergeRules.lean

What a merge can do, said once.

* `IncomingStep` is one turn of the loop over incoming fields in full: which member
  of the family was chosen, and why (`mergeField_cases`).
* `LevelStep` forgets the choice and lists what one incoming field, or one wrapped
  scalar, can do to a level: nothing, evolve one member of the family, fill an
  untyped field, append the field, or append a new version of it
  (`mergeField_step`, `wrapScalar_step`).
* `mergeFields_run` is the rule for a whole level: what every step preserves, the
  loop preserves.
* `mergeTypes_rule` is the rule for whole types, by induction over the incoming
  type and, below an incoming scalar or struct, over the base.
* `MergeInvariant` packages both for conditions on the nodes of a type: what one
  step keeps at its level, a whole merge keeps at every level.

Later files prove invariants of the merge from these and never unfold it.
-/
import SchemaSanitizer.Registry

namespace SchemaSanitizer

open Lib List

/-! ### Steps on one level -/

variable {name path key : Bytes} {f : LogicalField} {out fs : List LogicalField} {r : MergedFields}
  {k : ScalarKind}

/-- The effect of merging the field `f`, observed at `path`, into a level. -/
inductive LevelStep (key path : Bytes) (f : LogicalField) (out : List LogicalField) :
    MergedFields → Prop
  /-- An exact shape is reused, or one of the two types is missing. -/
  | unchanged : LevelStep key path f out (out, [])
  /-- A member of the family takes the incoming type. -/
  | evolved {i : Nat} {g : LogicalField} {c t : LogicalType} {r : MergedType}
      (ht : f.type = some t) (hg : out[i]? = some g)
      (hfam : familyBaseName g = familyBaseName f) (hc : g.type = some c)
      (hr : mergeTypes key c t path = some r) :
      LevelStep key path f out
        (out.set i { g with type := some r.1 }, promotionDrifts path g.name c r.1 r.2)
  /-- An untyped field takes the type silently. -/
  | filled {i : Nat} {g : LogicalField} (hg : out[i]? = some g) (hname : g.name = f.name)
      (hc : g.type = none) :
      LevelStep key path f out (out.set i { g with type := f.type }, [])
  /-- The field is new. -/
  | added (hfresh : f.name ∉ out.map FieldOf.name) :
      LevelStep key path f out
        (out ++ [f], [⟨path, f.name, .newlyAdded, none, fieldTypeString f⟩])
  /-- No member of the family takes the type: it becomes a version of its own. -/
  | variant {t : LogicalType} {previous : Option Bytes} (ht : f.type = some t)
      (hpresent : f.name ∈ out.map FieldOf.name ∨ versionedFieldBase f.name ≠ [])
      (hmember : ∃ g ∈ out, familyBaseName g = familyBaseName f)
      (hfail : ∀ g ∈ out, familyBaseName g = familyBaseName f →
        ∀ c, g.type = some c → mergeTypes key c t path = none) :
      LevelStep key path f out
        (out ++ [{ f with name := nextVariantName out (familyBaseName f) t, nullable := true }],
          [⟨path, nextVariantName out (familyBaseName f) t, .newVersionGenerated, previous,
            fieldTypeString f⟩])

theorem forall_mem_set {α : Type} {Q : α → Prop} {l : List α} {i : Nat} {a : α}
    (h : ∀ b ∈ l, Q b) (ha : Q a) : ∀ b ∈ l.set i a, Q b := by
  intro b hb
  rcases mem_or_eq_of_mem_set hb with hb | rfl
  · exact h b hb
  · exact ha

theorem newestPosition_eq_none_iff {fields : List LogicalField} :
    newestPosition fields name = none ↔ name ∉ fields.map FieldOf.name := by
  simp only [newestPosition, lastMatch?_eq_none_iff, ite_eq_right_iff, reduceCtorEq, imp_false,
    mem_map, not_exists, not_and]
  constructor
  · intro h g hg
    obtain ⟨i, hi⟩ := getElem?_of_mem hg
    exact h i g hi
  · intro h i g hg
    exact h g (mem_of_getElem? hg)

theorem newestPosition_eq_some {fields : List LogicalField} {i : Nat} {g : LogicalField}
    (h : newestPosition fields name = some (i, g)) : fields[i]? = some g ∧ g.name = name := by
  obtain ⟨j, x, hx, hg, -⟩ := lastMatch?_eq_some_iff.mp h
  obtain ⟨hname, hsome⟩ := Option.ite_none_right_eq_some.mp hg
  cases hsome
  exact ⟨hx, hname⟩

/-- Probing a family: some member but the skipped one has exactly the type, or the
newest member that takes it is evolved, or every member fails. -/
theorem mergeIntoExistingFamilyVariant_cases (out : List LogicalField) (base : Bytes)
    (skipped : Option Nat) (t : LogicalType) (path : Bytes)
    (merge : LogicalType → Option MergedType) :
    (∃ i g, out[i]? = some g ∧ familyBaseName g = base ∧ skipped ≠ some i ∧ g.type = some t ∧
      mergeIntoExistingFamilyVariant out base skipped t path merge = some (out, [])) ∨
    (∃ i g c r, out[i]? = some g ∧ familyBaseName g = base ∧ skipped ≠ some i ∧
      g.type = some c ∧ merge c = some r ∧
      (∀ j x, i < j → out[j]? = some x → familyBaseName x = base → skipped ≠ some j →
        ∀ c, x.type = some c → merge c = none) ∧
      (∀ j x, out[j]? = some x → familyBaseName x = base → skipped ≠ some j →
        x.type ≠ some t) ∧
      mergeIntoExistingFamilyVariant out base skipped t path merge =
        some (out.set i { g with type := some r.1 }, promotionDrifts path g.name c r.1 r.2)) ∨
    (mergeIntoExistingFamilyVariant out base skipped t path merge = none ∧
      ∀ i g, out[i]? = some g → familyBaseName g = base → skipped ≠ some i →
        g.type ≠ some t ∧ ∀ c, g.type = some c → merge c = none) := by
  unfold mergeIntoExistingFamilyVariant
  dsimp only
  split
  · rename_i hexact
    obtain ⟨u, hu⟩ := Option.isSome_iff_exists.mp hexact
    obtain ⟨i, g, hg, hmatch, -⟩ := lastMatch?_eq_some_iff.mp hu
    obtain ⟨⟨⟨hbase, hskip⟩, htype⟩, -⟩ := Option.ite_none_right_eq_some.mp hmatch
    exact .inl ⟨i, g, hg, hbase, hskip, htype, rfl⟩
  rename_i hexact
  have hinexact : ∀ j x, out[j]? = some x → familyBaseName x = base → skipped ≠ some j →
      x.type ≠ some t := by
    intro j x hx hbase hskip htype
    have hnone := lastMatch?_eq_none_iff.mp (Option.not_isSome_iff_eq_none.mp hexact) j x hx
    rw [if_pos ⟨⟨hbase, hskip⟩, htype⟩] at hnone
    cases hnone
  refine .inr ?_
  rcases e : lastMatch? _ out with - | r
  · refine .inr ⟨rfl, ?_⟩
    intro i g hg hbase hskip
    refine ⟨hinexact i g hg hbase hskip, ?_⟩
    intro c hc
    have hprobe := lastMatch?_eq_none_iff.mp e i g hg
    rw [if_pos ⟨hbase, hskip⟩] at hprobe
    simpa [hc] using hprobe
  · refine .inl ?_
    obtain ⟨i, g, hg, hmatch, hnewer⟩ := lastMatch?_eq_some_iff.mp e
    obtain ⟨⟨hbase, hskip⟩, hmatch⟩ := Option.ite_none_right_eq_some.mp hmatch
    rcases hc : g.type with - | c
    · rw [hc] at hmatch
      cases hmatch
    · rw [hc] at hmatch
      obtain ⟨q, hq, rfl⟩ := Option.map_eq_some_iff.mp hmatch
      refine ⟨i, g, c, q, hg, hbase, hskip, hc, hq, ?_, hinexact, rfl⟩
      intro j x hij hx hxbase hxskip d hd
      have hprobe := hnewer j x hij hx
      rw [if_pos ⟨hxbase, hxskip⟩] at hprobe
      simpa [hd] using hprobe

theorem versionedFieldBase_eq_familyBase (h : versionedFieldBase name ≠ []) :
    versionedFieldBase name = variantFamilyBase name := by
  simp [variantFamilyBase, h]

/-- When the family of a field is probed: its own column fails and is skipped, or it
has none and its name is versioned. -/
inductive Probes (key path : Bytes) (f : LogicalField) (t : LogicalType)
    (out : List LogicalField) : Option Nat → Prop
  | failed {i : Nat} {g : LogicalField} {c : LogicalType} (hg : out[i]? = some g)
      (hname : g.name = f.name) (hc : g.type = some c)
      (hfail : mergeTypes key c t path = none) : Probes key path f t out (some i)
  | absent (hfresh : f.name ∉ out.map FieldOf.name) (hversioned : versionedFieldBase f.name ≠ [])
      (hmember : ∃ g ∈ out, familyBaseName g = familyBaseName f) : Probes key path f t out none

/-- One turn of the loop of `merge_fields`, in full. -/
inductive IncomingStep (key path : Bytes) (f : LogicalField) (out : List LogicalField) :
    MergedFields → Prop
  | untyped {i : Nat} {g : LogicalField} (hg : out[i]? = some g) (hname : g.name = f.name)
      (hnone : f.type = none ∨ g.type = none) : IncomingStep key path f out (out, [])
  | own {i : Nat} {g : LogicalField} {c t : LogicalType} {q : MergedType} (ht : f.type = some t)
      (hg : out[i]? = some g) (hname : g.name = f.name) (hc : g.type = some c)
      (hr : mergeTypes key c t path = some q) :
      IncomingStep key path f out
        (out.set i { g with type := some q.1 }, promotionDrifts path g.name c q.1 q.2)
  | reused {t : LogicalType} {skipped : Option Nat} {i : Nat} {g : LogicalField}
      (ht : f.type = some t) (hprobes : Probes key path f t out skipped) (hg : out[i]? = some g)
      (hfam : familyBaseName g = familyBaseName f) (hskip : skipped ≠ some i)
      (hexact : g.type = some t) : IncomingStep key path f out (out, [])
  | newest {t : LogicalType} {skipped : Option Nat} {i : Nat} {g : LogicalField}
      {c : LogicalType} {q : MergedType} (ht : f.type = some t)
      (hprobes : Probes key path f t out skipped) (hg : out[i]? = some g)
      (hfam : familyBaseName g = familyBaseName f) (hskip : skipped ≠ some i)
      (hc : g.type = some c) (hr : mergeTypes key c t path = some q)
      (hnewer : ∀ j x, i < j → out[j]? = some x → familyBaseName x = familyBaseName f →
        skipped ≠ some j → ∀ c, x.type = some c → mergeTypes key c t path = none)
      (hinexact : ∀ j x, out[j]? = some x → familyBaseName x = familyBaseName f →
        skipped ≠ some j → x.type ≠ some t) :
      IncomingStep key path f out
        (out.set i { g with type := some q.1 }, promotionDrifts path g.name c q.1 q.2)
  | added (hfresh : f.name ∉ out.map FieldOf.name)
      (hnew : f.type ≠ none → versionedFieldBase f.name ≠ [] →
        ∀ g ∈ out, familyBaseName g ≠ familyBaseName f) :
      IncomingStep key path f out
        (out ++ [f], [⟨path, f.name, .newlyAdded, none, fieldTypeString f⟩])
  | variant {t : LogicalType} {skipped : Option Nat} {previous : Option Bytes}
      (ht : f.type = some t) (hprobes : Probes key path f t out skipped)
      (hfail : ∀ i x, out[i]? = some x → familyBaseName x = familyBaseName f →
        skipped ≠ some i → x.type ≠ some t ∧
          ∀ c, x.type = some c → mergeTypes key c t path = none) :
      IncomingStep key path f out
        (out ++ [{ f with name := nextVariantName out (familyBaseName f) t, nullable := true }],
          [⟨path, nextVariantName out (familyBaseName f) t, .newVersionGenerated, previous,
            fieldTypeString f⟩])

theorem Probes.fails {t c : LogicalType} {skipped : Option Nat} {j : Nat} {x : LogicalField}
    (h : Probes key path f t out skipped) (hx : out[j]? = some x) (hc : x.type = some c)
    (hfail : skipped ≠ some j → mergeTypes key c t path = none) :
    mergeTypes key c t path = none := by
  by_cases hskip : skipped = some j
  · cases h with
    | failed hg hname hc' hown =>
      cases hskip
      cases hg.symm.trans hx
      cases hc'.symm.trans hc
      exact hown
    | absent => cases hskip
  · exact hfail hskip

/-- Probing the family is one of the steps a merge can take. -/
theorem probe_step {t : LogicalType} {skipped : Option Nat} (ht : f.type = some t)
    (hprobes : Probes key path f t out skipped) (previous : Option Bytes) :
    IncomingStep key path f out
      ((mergeIntoExistingFamilyVariant out (familyBaseName f) skipped t path
          fun c => mergeTypes key c t path).getD
        (appendVariant out f t (familyBaseName f) path previous)) := by
  rcases mergeIntoExistingFamilyVariant_cases out (familyBaseName f) skipped t path
      fun c => mergeTypes key c t path with
    ⟨i, g, hg, hfam, hskip, hexact, h⟩ | 
    ⟨i, g, c, r, hg, hfam, hskip, hc, hr, hnewer, hinexact, h⟩ | ⟨h, hfail⟩
  · rw [h]
    exact .reused ht hprobes hg hfam hskip hexact
  · rw [h]
    exact .newest ht hprobes hg hfam hskip hc hr hnewer hinexact
  · rw [h]
    exact .variant ht hprobes hfail

/-- **Inversion of one turn of the loop.** -/
theorem mergeIncoming_cases (key path : Bytes) (out : List LogicalField) (f : LogicalField) :
    IncomingStep key path f out
      (mergeIncoming out f path fun c => mergeElement key c f.type path) := by
  unfold mergeIncoming
  rcases hpos : newestPosition out f.name with - | ⟨position, g⟩
  · have hfresh := newestPosition_eq_none_iff.mp hpos
    rcases ht : f.type with - | t
    · exact .added hfresh fun htyped => absurd ht htyped
    · dsimp only
      split
      · -- a versioned name nobody has, of a family that exists
        rename_i hbase
        have hfam : versionedFieldBase f.name = familyBaseName f :=
          versionedFieldBase_eq_familyBase hbase.1
        obtain ⟨m, hm, hmbase⟩ := any_eq_true.mp hbase.2
        have hmember := (beq_iff_eq.mp hmbase).trans hfam
        rw [hfam]
        exact probe_step ht (.absent hfresh hbase.1 ⟨m, hm, hmember⟩) none
      · rename_i hbase
        refine .added hfresh ?_
        intro _ hversioned g hg hfam
        have hbeq : (familyBaseName g == versionedFieldBase f.name) = true := by
          rw [versionedFieldBase_eq_familyBase hversioned]
          exact beq_iff_eq.mpr hfam
        exact hbase ⟨hversioned, any_eq_true.mpr ⟨g, hg, hbeq⟩⟩
  · obtain ⟨hg, hname⟩ := newestPosition_eq_some hpos
    rcases ht : f.type with - | t
    · exact .untyped hg hname (.inl ht)
    dsimp only
    rcases hc : g.type with - | c
    · exact .untyped hg hname (.inr hc)
    dsimp only
    rcases hr : mergeElement key c (some t) path with - | q
    · -- the field of that name fails: probe the rest of its family
      exact probe_step ht (.failed hg hname hc hr) _
    · exact .own ht hg hname hc hr

/-- Every step of a merge changes one field or appends one. -/
theorem IncomingStep.levelStep (h : IncomingStep key path f out r) :
    LevelStep key path f out r := by
  cases h with
  | untyped | reused => exact .unchanged
  | own ht hg hname hc hr =>
    exact .evolved ht hg (by rw [familyBaseName, hname, familyBaseName]) hc hr
  | newest ht hprobes hg hfam hskip hc hr hnewer hinexact => exact .evolved ht hg hfam hc hr
  | added hfresh hnew => exact .added hfresh
  | @variant t skipped previous ht hprobes hfail =>
    have hall : ∀ x ∈ out, familyBaseName x = familyBaseName f → ∀ c, x.type = some c →
        mergeTypes key c t path = none := by
      intro x hx hfam c hc
      obtain ⟨j, hj⟩ := getElem?_of_mem hx
      exact hprobes.fails hj hc fun hskip => (hfail j x hj hfam hskip).2 c hc
    cases hprobes with
    | @failed i g c hg hname hc hown =>
      have hmem := mem_of_getElem? hg
      have hfam : familyBaseName g = familyBaseName f := by
        rw [familyBaseName, hname, familyBaseName]
      exact .variant ht (.inl (hname ▸ mem_map_of_mem hmem)) ⟨g, hmem, hfam⟩ hall
    | absent hfresh hversioned hmember => exact .variant ht (.inr hversioned) hmember hall

theorem mergeField_cases (key : Bytes) (out : List LogicalField) (f : LogicalField)
    (parentPath : Bytes) :
    IncomingStep key (joinPath parentPath (sourceSegmentForOutput f.name)) f out
      (mergeField key out f parentPath) := by
  obtain ⟨n, v, b⟩ := f
  exact mergeIncoming_cases key _ out ⟨n, v, b⟩

theorem mergeField_step (key : Bytes) (out : List LogicalField) (f : LogicalField)
    (parentPath : Bytes) :
    LevelStep key (joinPath parentPath (sourceSegmentForOutput f.name)) f out
      (mergeField key out f parentPath) :=
  (mergeField_cases key out f parentPath).levelStep

/-- Wrapping a scalar appends the wrapper key, gives it a type, or merges into it. -/
theorem wrapScalar_cases {key : Bytes} : ∀ {fs : List LogicalField}
    {r : MergedFields}, wrapScalar key k fs path = some r →
    (key ∉ fs.map FieldOf.name ∧
      r = (fs ++ [⟨key, some (.scalar k), true⟩],
        [⟨path, key, .newlyAdded, none, logicalTypeString (.scalar k)⟩])) ∨
    (∃ i g, fs[i]? = some g ∧ g.name = key ∧ g.type = none ∧
      r = (fs.set i { g with type := some (.scalar k) }, [])) ∨
    (∃ i g c q, fs[i]? = some g ∧ g.name = key ∧ g.type = some c ∧
      mergeScalarInto key k c path = some q ∧
      r = (fs.set i { g with type := some q.1 }, promotionDrifts path g.name c q.1 q.2))
  | [], r, h => by
    cases h
    exact .inl ⟨by simp, rfl⟩
  | ⟨n, v, b⟩ :: fs, r, h => by
    rw [wrapScalar] at h
    split at h
    · -- the wrapper field itself
      rename_i hname
      obtain ⟨q, hq, rfl⟩ := Option.map_eq_some_iff.mp h
      rcases v with - | c
      · cases hq
        exact .inr (.inl ⟨0, _, rfl, hname, rfl, rfl⟩)
      · obtain ⟨m, hm, rfl⟩ := Option.map_eq_some_iff.mp hq
        exact .inr (.inr ⟨0, _, c, m, rfl, hname, rfl, hm, rfl⟩)
    · rename_i hname
      obtain ⟨q, hq, rfl⟩ := Option.map_eq_some_iff.mp h
      rcases wrapScalar_cases hq with ⟨hfresh, rfl⟩ | ⟨i, g, hg, hgn, hc, rfl⟩ |
        ⟨i, g, c, m, hg, hgn, hc, hm, rfl⟩
      · refine .inl ⟨?_, rfl⟩
        rw [map_cons, mem_cons]
        rintro (heq | hmem)
        · exact hname heq.symm
        · exact hfresh hmem
      · exact .inr (.inl ⟨i + 1, g, hg, hgn, hc, rfl⟩)
      · exact .inr (.inr ⟨i + 1, g, c, m, hg, hgn, hc, hm, rfl⟩)

theorem wrapScalar_step (h : wrapScalar (wrapperKey key) k fs path = some r) :
    LevelStep key path ⟨wrapperKey key, some (.scalar k), true⟩ fs r := by
  rcases wrapScalar_cases h with ⟨hfresh, rfl⟩ | ⟨i, g, hg, hgn, hc, rfl⟩ |
    ⟨i, g, c, m, hg, hgn, hc, hm, rfl⟩
  · exact .added hfresh
  · exact .filled hg hgn hc
  · refine .evolved (t := .scalar k) rfl hg ?_ hc ?_
    · rw [familyBaseName, hgn, familyBaseName]
    · rw [mergeTypes]
      exact hm

theorem mergeScalarKinds_cases {b m : ScalarKind} (h : mergeScalarKinds b k = some m) :
    m = b ∨ (b = .int64 ∧ k = .float64 ∧ m = .float64) ∨ (b = .null ∧ m = k ∧ k ≠ .null) := by
  revert h
  cases b <;> cases k <;> simp [mergeScalarKinds] <;> rintro rfl <;> simp

/-! ### Runs over a level -/

/-- **Run rule for one level**: a relation that holds of no steps, and that
absorbs a step in front, holds of the whole loop. -/
theorem mergeFields_run {key : Bytes} {S : List LogicalField → MergedFields → Prop} :
    ∀ {fs : List LogicalField}, (∀ out, S out (out, [])) →
    (∀ f ∈ fs, ∀ out r s,
      LevelStep key (joinPath path (sourceSegmentForOutput f.name)) f out r →
      S r.1 s → S out (s.1, r.2 ++ s.2)) →
    ∀ out, S out (mergeFields key out fs path)
  | [], hnil, _, out => hnil out
  | f :: fs, hnil, hstep, out => by
    have ih := mergeFields_run hnil (fun g hg => hstep g (mem_cons_of_mem f hg))
      (mergeField key out f path).1
    exact hstep f mem_cons_self out _ _ (mergeField_step key out f path) ih

/-! ### Runs over a type -/

@[simp] theorem mergeTypes_scalar (key path : Bytes) (base : LogicalType) (k : ScalarKind) :
    mergeTypes key base (.scalar k) path = mergeScalarInto (wrapperKey key) k base path := by
  rw [mergeTypes]

theorem mergeTypes_struct (key path : Bytes) (base : LogicalType) (fs : List LogicalField) :
    mergeTypes key base (.struct fs) path
      = mergeStructInto (fun bs p => mergeFields key bs fs p) base path := by
  rw [mergeTypes]

theorem mergeTypes_list (key path : Bytes) (base : LogicalType) (v : Option LogicalType) :
    mergeTypes key base (.list v) path =
      match base with
      | .list (some e) =>
        (mergeElement key e v (path ++ bytes "[]")).map fun r => (.list (some r.1), r.2)
      | _ => none := by
  rcases base with k | bs | v'
  · rfl
  · rfl
  · rcases v' with - | e
    · rfl
    · rfl

section Rule

variable {key : Bytes} {R : LogicalType → LogicalType → Bytes → MergedType → Prop}

/-- A relation between base, incoming type, path and result that holds of joined scalars, is
kept when a list is entered, and holds of a struct whenever it holds of the merges of its
fields. -/
structure MergeRule (key : Bytes) (R : LogicalType → LogicalType → Bytes → MergedType → Prop) :
    Prop where
  scalar : ∀ b k m path, mergeScalarKinds b k = some m →
    R (.scalar b) (.scalar k) path (.scalar m, [])
  wrap : ∀ bs k path r,
    wrapScalar (wrapperKey key) k bs (joinPath path (wrapperKey key)) = some r →
    (∀ f ∈ bs, ∀ c, f.type = some c → ∀ p q, mergeTypes key c (.scalar k) p = some q →
      R c (.scalar k) p q) →
    R (.struct bs) (.scalar k) path (.struct r.1, r.2)
  struct : ∀ bs fs path,
    (∀ f ∈ fs, ∀ t, f.type = some t → ∀ c p q, mergeTypes key c t p = some q → R c t p q) →
    R (.struct bs) (.struct fs) path
      (.struct (mergeFields key bs fs path).1, (mergeFields key bs fs path).2)
  enter : ∀ e t path r, (∀ v, t ≠ .list v) → R e t (path ++ bytes "[]") r →
    R (.list (some e)) t path (.list (some r.1), r.2)
  listNone : ∀ e path, R (.list (some e)) (.list none) path (.list (some e), [])
  listSome : ∀ e t path r, R e t (path ++ bytes "[]") r →
    R (.list (some e)) (.list (some t)) path (.list (some r.1), r.2)

/-- The rule below an incoming scalar, by induction over the base. -/
theorem MergeRule.scalarInto (h : MergeRule key R) (k : ScalarKind) (base : LogicalType) :
    ∀ path r, mergeTypes key base (.scalar k) path = some r → R base (.scalar k) path r := by
  simp only [mergeTypes_scalar]
  induction base with
  | scalar b =>
    intro path r hr
    obtain ⟨m, hm, rfl⟩ := Option.map_eq_some_iff.mp hr
    exact h.scalar b k m path hm
  | struct bs ih =>
    intro path r hr
    obtain ⟨q, hq, rfl⟩ := Option.map_eq_some_iff.mp hr
    refine h.wrap bs k path q hq ?_
    simpa only [mergeTypes_scalar] using ih
  | listNone => exact fun _ _ hr => nomatch hr
  | listSome e ih =>
    intro path r hr
    obtain ⟨q, hq, rfl⟩ := Option.map_eq_some_iff.mp hr
    exact h.enter e _ path q (by simp) (ih _ q hq)

/-- The rule below an incoming struct, by induction over the base. -/
theorem MergeRule.structInto (h : MergeRule key R)
    (hfs : ∀ f ∈ fs, ∀ t, f.type = some t → ∀ c p q, mergeTypes key c t p = some q → R c t p q)
    (base : LogicalType) :
    ∀ path r, mergeTypes key base (.struct fs) path = some r → R base (.struct fs) path r := by
  simp only [mergeTypes_struct]
  induction base with
  | scalar | listNone => exact fun _ _ hr => nomatch hr
  | struct bs _ =>
    intro path r hr
    cases hr
    exact h.struct bs fs path hfs
  | listSome e ih =>
    intro path r hr
    obtain ⟨q, hq, rfl⟩ := Option.map_eq_some_iff.mp hr
    exact h.enter e _ path q (by simp) (ih _ q hq)

/-- **Run rule for types.**  Such a relation holds of every successful merge. -/
theorem mergeTypes_rule (h : MergeRule key R) (t : LogicalType) :
    ∀ base path r, mergeTypes key base t path = some r → R base t path r := by
  induction t with
  | scalar k => exact h.scalarInto k
  | struct fs ih => exact h.structInto ih
  | listNone =>
    intro base path r hr
    rw [mergeTypes_list] at hr
    split at hr
    · cases hr
      exact h.listNone _ path
    · cases hr
  | listSome t ih =>
    intro base path r hr
    rw [mergeTypes_list] at hr
    split at hr
    · obtain ⟨q, hq, rfl⟩ := Option.map_eq_some_iff.mp hr
      exact h.listSome _ t path q (ih _ _ q hq)
    · cases hr

end Rule

/-! ### Invariants of all levels -/

/-- A condition `P` on the nodes of the base, `Q` on the nodes of the incoming type and
`Fits` on incoming fields, such that one step keeps `P` at its level. -/
structure MergeInvariant (key : Bytes) (P Q : LogicalType → Prop) (Fits : LogicalField → Prop) :
    Prop where
  scalar : ∀ k, P (.scalar k)
  list : ∀ e, P (.list (some e))
  initial : ∀ t, Q t → P t
  fits : ∀ fs, Q (.struct fs) → ∀ f ∈ fs, Fits f
  wrapper : ∀ k, Fits ⟨wrapperKey key, some (.scalar k), true⟩
  level : ∀ path f out r, LevelStep key path f out r → Fits f → P (.struct out) → P (.struct r.1)

section Invariant

variable {key : Bytes} {P Q : LogicalType → Prop} {Fits : LogicalField → Prop}

section

variable (h : MergeInvariant key P Q Fits)

include h

/-- One step of a merge keeps the invariant. -/
theorem MergeInvariant.step (hstep : LevelStep key path f out r) (hfits : Fits f)
    (hout : (LogicalType.struct out).Forall P) (hf : ∀ t, f.type = some t → t.Forall Q)
    (ih : ∀ t, f.type = some t → ∀ g ∈ out, ∀ c, g.type = some c →
      ∀ q, mergeTypes key c t path = some q → c.Forall P → q.1.Forall P) :
    (LogicalType.struct r.1).Forall P := by
  rw [forall_struct] at hout ⊢
  refine ⟨h.level path f out r hstep hfits hout.1, ?_⟩
  have hnew : ∀ t, f.type = some t → t.Forall P := fun t ht => (hf t ht).mono h.initial
  cases hstep with
  | unchanged => exact hout.2
  | @evolved i g c t q ht hg hfam hc hr =>
    have hmem : g ∈ out := mem_of_getElem? hg
    refine forall_mem_set hout.2 ?_
    rintro _ ⟨rfl⟩
    exact ih t ht g hmem c hc q hr (hout.2 g hmem c hc)
  | filled hg hname hc => exact forall_mem_set hout.2 hnew
  | added | variant => exact forall_mem_append.mpr ⟨hout.2, forall_mem_singleton.mpr hnew⟩

theorem MergeInvariant.run (hfs : (LogicalType.struct fs).Forall Q)
    (ih : ∀ f ∈ fs, ∀ t, f.type = some t → ∀ c p q, mergeTypes key c t p = some q → c.Forall P →
      q.1.Forall P)
    (hout : (LogicalType.struct out).Forall P) :
    (LogicalType.struct (mergeFields key out fs path).1).Forall P := by
  obtain ⟨hlevel, hnested⟩ := forall_struct.mp hfs
  refine mergeFields_run (S := fun out r => (LogicalType.struct out).Forall P →
    (LogicalType.struct r.1).Forall P) (fun _ hout => hout) ?_ out hout
  intro f hf out r s hstep hrest hout
  apply hrest
  apply h.step hstep (h.fits fs hlevel f hf) hout (hnested f hf)
  intro t ht g _ c _ q hq
  exact ih f hf t ht c _ q hq

/-- **A step invariant is an invariant of merged types.** -/
theorem MergeInvariant.mergeTypes (t : LogicalType) :
    ∀ base path r, mergeTypes key base t path = some r → t.Forall Q → base.Forall P →
    r.1.Forall P := by
  refine mergeTypes_rule (R := fun base t _ r => t.Forall Q → base.Forall P → r.1.Forall P)
    ⟨?scalar, ?wrap, ?struct, ?enter, ?listNone, ?listSome⟩ t
  case scalar =>
    intro b k m _ _ _ _
    exact forall_scalar.mpr (h.scalar m)
  case wrap =>
    intro bs k path r hwrap ih hk hbs
    refine h.step (wrapScalar_step hwrap) (h.wrapper k) hbs (by rintro t ⟨rfl⟩; exact hk) ?_
    rintro t ⟨rfl⟩ g hg c hc q hq
    exact ih g hg c hc _ q hq hk
  case struct =>
    intro bs fs path ih hfs hbs
    refine h.run hfs ?_ hbs
    intro f hf t ht c p q hq
    exact ih f hf t ht c p q hq ((forall_struct.mp hfs).2 f hf t ht)
  case enter =>
    intro e t _ r _ ih ht hbase
    exact forall_listSome.mpr ⟨h.list r.1, ih ht (forall_listSome.mp hbase).2⟩
  case listNone =>
    intro e _ _ hbase
    exact hbase
  case listSome =>
    intro e t _ r ih ht hbase
    exact forall_listSome.mpr
      ⟨h.list r.1, ih (forall_listSome.mp ht).2 (forall_listSome.mp hbase).2⟩

theorem MergeInvariant.levelStep (hstep : LevelStep key path f out r) (hfits : Fits f)
    (hf : ∀ t, f.type = some t → t.Forall Q) (hout : (LogicalType.struct out).Forall P) :
    (LogicalType.struct r.1).Forall P := by
  refine h.step hstep hfits hout hf ?_
  intro t ht g _ c _ q hq
  exact h.mergeTypes t c path q hq (hf t ht)

/-- **A step invariant is an invariant of merged levels.** -/
theorem MergeInvariant.mergeFields (path : Bytes) (hfs : (LogicalType.struct fs).Forall Q)
    (hout : (LogicalType.struct out).Forall P) :
    (LogicalType.struct (mergeFields key out fs path).1).Forall P := by
  refine h.run hfs ?_ hout
  intro f hf t ht c p q hq
  exact h.mergeTypes t c p q hq ((forall_struct.mp hfs).2 f hf t ht)

end

end Invariant

end SchemaSanitizer
