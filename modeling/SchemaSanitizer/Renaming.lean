/-
SchemaSanitizer/Renaming.lean

The names of siblings do not depend on their order
(`clean_sibling_field_names`).

The source assigns names in the order of the keys, writes each to the position of
its key, and remembers which names are in use.  Positions only matter for equal
keys.  So for distinct keys the whole loop is a renaming of keys, which is fixed by
the set of siblings alone:

    cleanSiblingFieldNames opts names = names.map (siblingRenaming opts names)

(`cleanSiblingFieldNames_eq_map`), and it gives different keys different names
(`siblingRenaming_injOn`), because every name is chosen among the unused ones.
-/
import Mathlib.Data.List.FinRange
import SchemaSanitizer.Evolution
import SchemaSanitizer.FieldNames

namespace SchemaSanitizer

open List

/-! ### The loop over keys -/

section Keys

variable {opts : NameOptions} {names names' : List Bytes}

/-- The names that keys get one after the other, when some are in use. -/
def assignedNames (opts : NameOptions) (names : List Bytes) : List Bytes → List Bytes → List Bytes
  | [], _ => []
  | dirty :: rest, used =>
    chooseName opts names used dirty ::
      assignedNames opts names rest (chooseName opts names used dirty :: used)

/-- The name one key gets in that loop. -/
def assignedName (opts : NameOptions) (names rest used : List Bytes) (dirty : Bytes) : Bytes :=
  ((rest.zip (assignedNames opts names rest used)).lookup dirty).getD []

theorem assignedName_head (rest used : List Bytes) (dirty : Bytes) :
    assignedName opts names (dirty :: rest) used dirty = chooseName opts names used dirty := by
  simp [assignedName, assignedNames]

theorem assignedName_tail {dirty first : Bytes} (h : dirty ≠ first) (rest used : List Bytes) :
    assignedName opts names (first :: rest) used dirty =
      assignedName opts names rest (chooseName opts names used first :: used) dirty := by
  simp [assignedName, assignedNames, lookup_cons, beq_eq_false_iff_ne.mpr h]

/-- The siblings matter only through how often a base occurs among them. -/
theorem firstCandidate_perm (h : names.Perm names') (dirty : Bytes) :
    firstCandidate opts names dirty = firstCandidate opts names' dirty := by
  unfold firstCandidate
  dsimp only
  rw [(h.map (cleanFieldNameBase opts)).count_eq]

theorem chooseName_perm (h : names.Perm names') (used : List Bytes) (dirty : Bytes) :
    chooseName opts names used dirty = chooseName opts names' used dirty := by
  unfold chooseName
  rw [firstCandidate_perm h]

theorem assignedNames_perm (h : names.Perm names') (rest : List Bytes) : ∀ used,
    assignedNames opts names rest used = assignedNames opts names' rest used := by
  induction rest with
  | nil => exact fun _ => rfl
  | cons dirty rest ih =>
    intro used
    rw [assignedNames, assignedNames, chooseName_perm h, ih]

/-- **Every name is new**: not in use before, and given to one key only. -/
theorem assignedName_fresh {rest : List Bytes} : ∀ {used : List Bytes}, rest.Nodup →
    ∀ d ∈ rest, assignedName opts names rest used d ∉ used ∧
      ∀ e ∈ rest, assignedName opts names rest used d = assignedName opts names rest used e →
        d = e := by
  induction rest with
  | nil => exact fun _ d hd => absurd hd not_mem_nil
  | cons first rest ih =>
    intro used hnodup d hd
    obtain ⟨hfirst, hrest⟩ := nodup_cons.mp hnodup
    have hne : ∀ {e}, e ∈ rest → e ≠ first := fun he heq => hfirst (heq ▸ he)
    -- a later name is neither the first one nor one in use
    have hlater : ∀ e ∈ rest, assignedName opts names (first :: rest) used e ∉
        chooseName opts names used first :: used := by
      intro e he
      rw [assignedName_tail (hne he)]
      exact (ih hrest e he).1
    rcases mem_cons.mp hd with rfl | hdrest
    · rw [assignedName_head]
      refine ⟨chooseName_unused, fun e he heq => ?_⟩
      rcases mem_cons.mp he with rfl | he
      · rfl
      · exact absurd (heq ▸ mem_cons_self) (hlater e he)
    · refine ⟨fun hused => hlater d hdrest (mem_cons_of_mem _ hused), fun e he heq => ?_⟩
      rcases mem_cons.mp he with rfl | he
      · rw [assignedName_head] at heq
        exact absurd (heq ▸ mem_cons_self) (hlater d hdrest)
      · rw [assignedName_tail (hne hdrest), assignedName_tail (hne he)] at heq
        exact (ih hrest d hdrest).2 e he heq

end Keys

/-! ### The loop over positions -/

section Positions

variable {opts : NameOptions} {names names' : List Bytes}

theorem namingOrder_perm (names : List Bytes) : (namingOrder names).Perm (range names.length) :=
  perm_insertionSort _ _

theorem map_getD_range (names : List Bytes) :
    (range names.length).map (fun i => names.getD i []) = names := by
  apply ext_getElem
  · simp
  · intro i hi hi'
    rw [getElem_map, getElem_range, getD_eq_getElem _ _ hi']

/-- Names are chosen in sorted order. -/
theorem map_namingOrder (names : List Bytes) :
    (namingOrder names).map (fun i => names.getD i []) = sortNames names := by
  set r : Nat → Nat → Prop := fun lhs rhs =>
    if names.getD lhs [] = names.getD rhs [] then lhs ≤ rhs
    else names.getD lhs [] < names.getD rhs [] with hr
  -- the order of the loop refines the order of the keys
  have hle : ∀ {lhs rhs}, r lhs rhs → names.getD lhs [] ≤ names.getD rhs [] := by
    intro lhs rhs h
    by_cases heq : names.getD lhs [] = names.getD rhs []
    · rw [heq]
      exact List.le_refl _
    · rw [hr] at h
      simp only [if_neg heq] at h
      exact List.le_of_lt h
  have hrtotal : Std.Total r := by
    refine ⟨fun a b => ?_⟩
    by_cases heq : names.getD a [] = names.getD b []
    · simp only [hr, heq, if_true]
      exact Nat.le_total a b
    · simp only [hr, if_neg heq, if_neg (Ne.symm heq)]
      by_contra hneither
      rw [not_or, List.not_lt, List.not_lt] at hneither
      exact heq (List.le_antisymm hneither.2 hneither.1)
  have hrtrans : IsTrans Nat r := by
    refine ⟨fun a b c hab hbc => ?_⟩
    simp only [hr] at hab hbc ⊢
    split_ifs at hab hbc ⊢ <;> grind
  have hsorted : ((namingOrder names).map fun i => names.getD i []).Pairwise (· ≤ ·) := by
    rw [pairwise_map]
    exact (pairwise_insertionSort r (range names.length)).imp hle
  refine List.Perm.eq_of_pairwise (fun a b _ _ hab hba => List.le_antisymm hab hba) hsorted
    (sortNames_sorted names) ?_
  have hperm := (namingOrder_perm names).map fun i => names.getD i []
  rw [map_getD_range] at hperm
  exact hperm.trans (sortNames_perm names).symm

theorem foldl_assignName_other {order : List Nat} {i : Nat} (hi : i ∉ order) :
    ∀ s : List Bytes × List Bytes, (order.foldl (assignName opts names) s).1[i]? = s.1[i]? := by
  induction order with
  | nil => exact fun _ => rfl
  | cons index order ih =>
    intro s
    rw [foldl_cons, ih fun h => hi (mem_cons_of_mem _ h)]
    exact getElem?_set_ne fun heq => hi (mem_cons.mpr (.inl heq.symm))

/-- **The loop writes to each position the name of its key.** -/
theorem foldl_assignName_getElem? {order : List Nat} : ∀ {s : List Bytes × List Bytes},
    (order.map fun i => names.getD i []).Nodup → (∀ i ∈ order, i < s.1.length) →
    ∀ i ∈ order, (order.foldl (assignName opts names) s).1[i]? =
      some (assignedName opts names (order.map fun i =>
        names.getD i []) s.2 (names.getD i [])) := by
  induction order with
  | nil => exact fun _ _ i hi => absurd hi not_mem_nil
  | cons index order ih =>
    intro s hnodup hlt i hi
    rw [map_cons, nodup_cons] at hnodup
    have hout : index ∉ order := fun hmem =>
      hnodup.1 (mem_map_of_mem (f := fun i => names.getD i []) hmem)
    rw [foldl_cons, map_cons]
    rcases mem_cons.mp hi with rfl | hi
    · rw [foldl_assignName_other hout, assignedName_head]
      exact getElem?_set_self (hlt i mem_cons_self)
    · have hne : names.getD i [] ≠ names.getD index [] := fun heq =>
        hnodup.1 (heq ▸ mem_map_of_mem (f := fun i => names.getD i []) hi)
      rw [assignedName_tail hne]
      refine ih hnodup.2 (fun j hj => ?_) i hi
      show j < (s.1.set index _).length
      rw [length_set]
      exact hlt j (mem_cons_of_mem _ hj)

end Positions

/-! ### The renaming -/

section Renaming

variable {opts : NameOptions} {names names' : List Bytes}

/-- The name of a key among distinct siblings. -/
def siblingRenaming (opts : NameOptions) (names : List Bytes) (dirty : Bytes) : Bytes :=
  if (names.map (cleanFieldNameBase opts)).Nodup then cleanFieldNameBase opts dirty
  else assignedName opts names (sortNames names) [] dirty

theorem siblingRenaming_perm (h : names.Perm names') :
    siblingRenaming opts names = siblingRenaming opts names' := by
  funext dirty
  unfold siblingRenaming assignedName
  rw [sortNames_congr h, assignedNames_perm h]
  have hbases := (h.map (cleanFieldNameBase opts)).nodup_iff
  by_cases hnodup : (names.map (cleanFieldNameBase opts)).Nodup
  · rw [if_pos hnodup, if_pos (hbases.mp hnodup)]
  · rw [if_neg hnodup, if_neg fun h => hnodup (hbases.mpr h)]

/-- **Distinct siblings are renamed**, each by itself. -/
theorem cleanSiblingFieldNames_eq_map (hp : opts.fieldNamePolicy ≠ .preserve) (h : names.Nodup) :
    cleanSiblingFieldNames opts names = names.map (siblingRenaming opts names) := by
  rw [cleanSiblingFieldNames, if_neg hp]
  dsimp only
  have hbases : (names.map (cleanFieldNameBase opts)).dedup.length = names.length ↔
      (names.map (cleanFieldNameBase opts)).Nodup := by
    constructor
    · exact fun hlen => length_map_dedup_eq (by simpa using hlen)
    · intro hnodup
      rw [hnodup.dedup, length_map]
  by_cases hdistinct : (names.map (cleanFieldNameBase opts)).Nodup
  · rw [if_pos (hbases.mpr hdistinct)]
    apply map_congr_left
    intro d _
    rw [siblingRenaming, if_pos hdistinct]
  · rw [if_neg fun hlen => hdistinct (hbases.mp hlen)]
    apply ext_getElem?
    intro i
    by_cases hi : i < names.length
    · have hmem : i ∈ namingOrder names := (namingOrder_perm names).mem_iff.mpr (mem_range.mpr hi)
      have hsorted : ((namingOrder names).map fun i => names.getD i []).Nodup := by
        rw [map_namingOrder]
        exact (sortNames_perm names).nodup_iff.mpr h
      rw [foldl_assignName_getElem? hsorted (fun j hj => ?_) i hmem, map_namingOrder,
        getElem?_map, getElem?_eq_getElem hi, getD_eq_getElem _ _ hi, Option.map_some,
        siblingRenaming, if_neg hdistinct]
      rw [length_replicate]
      exact mem_range.mp ((namingOrder_perm names).mem_iff.mp hj)
    · rw [getElem?_eq_none, getElem?_eq_none]
      · rw [length_map]
        omega
      · rw [length_foldl_assignName, length_replicate]
        omega

theorem siblingRenaming_injOn (h : names.Nodup) : ∀ d ∈ names, ∀ e ∈ names,
    siblingRenaming opts names d = siblingRenaming opts names e → d = e := by
  intro d hd e he heq
  unfold siblingRenaming at heq
  split_ifs at heq with hdistinct
  · exact inj_on_of_nodup_map hdistinct hd he heq
  · have hsorted := sortNames_perm names
    exact (assignedName_fresh (hsorted.nodup_iff.mpr h) d (hsorted.mem_iff.mpr hd)).2 e
      (hsorted.mem_iff.mpr he) heq

theorem cleanSiblingFieldNames_nodup (hp : opts.fieldNamePolicy ≠ .preserve) (h : names.Nodup) :
    (cleanSiblingFieldNames opts names).Nodup := by
  rw [cleanSiblingFieldNames_eq_map hp h]
  exact h.map_on (siblingRenaming_injOn h)

end Renaming

/-- **Collision-safe cleaning**: under a policy that rewrites names, distinct
siblings get distinct names, and a permutation of the siblings permutes the names. -/
theorem cleanSiblingFieldNames_distinct_equivariant (opts : NameOptions)
    (hp : opts.fieldNamePolicy = .lowerAlpha ∨ opts.fieldNamePolicy = .lowerSnake)
    (names : List Bytes) (h : names.Nodup) :
    (cleanSiblingFieldNames opts names).Nodup ∧
      ∀ σ : Equiv.Perm (Fin names.length),
        cleanSiblingFieldNames opts (List.ofFn fun i => names.get (σ i)) =
          List.ofFn fun i => (cleanSiblingFieldNames opts names).get
            ((σ i).cast length_cleanSiblingFieldNames.symm) := by
  have hp : opts.fieldNamePolicy ≠ .preserve := by
    rcases hp with hp | hp <;> rw [hp] <;> simp
  refine ⟨cleanSiblingFieldNames_nodup hp h, fun σ => ?_⟩
  have hperm : (ofFn fun i => names.get (σ i)).Perm names := by
    have hofFn := Equiv.Perm.ofFn_comp_perm σ names.get
    rwa [ofFn_get] at hofFn
  rw [cleanSiblingFieldNames_eq_map hp (hperm.nodup_iff.mpr h), siblingRenaming_perm hperm,
    map_ofFn]
  congr 1
  funext i
  simp [cleanSiblingFieldNames_eq_map hp h]

/-- Three keys of one base, and one of its own. -/
theorem cleanSiblingFieldNames_distinct_equivariant_sample :
    (cleanSiblingFieldNames ⟨.lowerSnake, bytes "default_key"⟩
      [bytes "a-b", bytes "A b", bytes "a_b", bytes "c"]).Nodup :=
  (cleanSiblingFieldNames_distinct_equivariant ⟨.lowerSnake, bytes "default_key"⟩ (Or.inr rfl) _
    (by decide)).1

end SchemaSanitizer
