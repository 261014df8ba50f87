/-
SchemaSanitizer/Lib/Grouping.lean

Grouping a stream of keyed items.  An item joins the newest group of its key if that
group has its value, and opens a group of its own otherwise; an item without a value
never joins.  Nothing here is about schemas.

* `group_perm`: every item is in exactly one group.
* `group_uniform`: the items of a group have its key and value.
* `group_joined`: two items of one key and value, with no item of that key between them,
  are in one group.
* `group_eq_map`: if there are no such items, every item is alone.
-/
import SchemaSanitizer.Lib.NewestFirst

namespace SchemaSanitizer.Lib

open List

variable {α κ β : Type*} [DecidableEq κ] [DecidableEq β] (key : α → κ) (val : α → Option β)

/-- The item `x` joins a group opened by `g`. -/
def Joins (g x : α) : Prop := val g = val x ∧ val x ≠ none

instance (g x : α) : Decidable (Joins val g x) :=
  inferInstanceAs (Decidable (val g = val x ∧ val x ≠ none))

/-- The newest group of a key, with its position.  A group is its first item together
with all its items. -/
def newestOf (k : κ) (groups : List (α × List α)) : Option (Nat × (α × List α)) :=
  lastMatch? (fun i g => if key g.1 = k then some (i, g) else none) groups

/-- Put an item into the newest group of its key, or into a new one. -/
def attach (groups : List (α × List α)) (x : α) : List (α × List α) :=
  match newestOf key (key x) groups with
  | some (i, g) =>
    if Joins val g.1 x then groups.set i (g.1, g.2 ++ [x]) else groups ++ [(x, [x])]
  | none => groups ++ [(x, [x])]

/-- The groups of a stream of items. -/
def group (l : List α) : List (α × List α) := l.foldl (attach key val) []

variable {key val}

variable {groups : List (α × List α)} {g : α × List α}

theorem newestOf_eq_some_iff {k : κ} {i : Nat} :
    newestOf key k groups = some (i, g) ↔
      groups[i]? = some g ∧ key g.1 = k ∧
        ∀ j h, i < j → groups[j]? = some h → key h.1 ≠ k := by
  rw [newestOf, lastMatch?_eq_some_iff]
  simp only [Option.ite_none_right_eq_some, ite_eq_right_iff, reduceCtorEq, imp_false]
  constructor
  · rintro ⟨j, h, hh, ⟨hk, hpair⟩, hnewer⟩
    cases hpair
    exact ⟨hh, hk, hnewer⟩
  · rintro ⟨hg, hk, hnewer⟩
    exact ⟨i, g, hg, ⟨hk, rfl⟩, hnewer⟩

/-- **What one item does**: it joins the newest group of its key, or it opens one, and that
group, if there is any, has another value. -/
theorem attach_cases (key : α → κ) (val : α → Option β) (groups : List (α × List α)) (x : α) :
    (∃ i g, newestOf key (key x) groups = some (i, g) ∧ Joins val g.1 x ∧
      attach key val groups x = groups.set i (g.1, g.2 ++ [x])) ∨
    (attach key val groups x = groups ++ [(x, [x])] ∧
      ∀ i g, newestOf key (key x) groups = some (i, g) → ¬ Joins val g.1 x) := by
  unfold attach
  rcases e : newestOf key (key x) groups with - | ⟨i, g⟩
  · exact .inr ⟨rfl, by simp⟩
  · dsimp only
    by_cases hjoin : Joins val g.1 x
    · exact .inl ⟨i, g, rfl, hjoin, if_pos hjoin⟩
    · refine .inr ⟨if_neg hjoin, ?_⟩
      intro j h hh
      cases hh
      exact hjoin

theorem group_concat (l : List α) (x : α) :
    group key val (l ++ [x]) = attach key val (group key val l) x := by
  rw [group, foldl_append]
  rfl

/-- **Every item is in exactly one group.** -/
theorem group_perm (key : α → κ) (val : α → Option β) (l : List α) :
    ((group key val l).flatMap Prod.snd).Perm l := by
  induction l using reverseRecOn with
  | nil => exact List.Perm.refl _
  | append_singleton l x ih =>
    rw [group_concat]
    refine List.Perm.trans ?_ (ih.append_right [x])
    rcases attach_cases key val (group key val l) x with
      ⟨i, g, hg, -, hattach⟩ | ⟨hattach, -⟩
    · obtain ⟨pre, post, hsplit, -, hset⟩ := split_at (newestOf_eq_some_iff.mp hg).1
      rw [hattach, hset, hsplit]
      simp only [flatMap_append, flatMap_cons, append_assoc]
      exact (perm_append_comm.append_left g.2).append_left _
    · rw [hattach, flatMap_append]
      simp

/-- **The items of a group have its key and its value.** -/
theorem group_uniform (key : α → κ) (val : α → Option β) (l : List α) :
    ∀ g ∈ group key val l, ∀ x ∈ g.2, key x = key g.1 ∧ val x = val g.1 := by
  induction l using reverseRecOn with
  | nil => simp [group]
  | append_singleton l x ih =>
    intro g hg y hy
    rw [group_concat] at hg
    rcases attach_cases key val (group key val l) x with
      ⟨i, h, hh, hjoin, hattach⟩ | ⟨hattach, -⟩
    · obtain ⟨hget, hkey, -⟩ := newestOf_eq_some_iff.mp hh
      rw [hattach] at hg
      rcases mem_or_eq_of_mem_set hg with hg | rfl
      · exact ih g hg y hy
      · rcases mem_append.mp hy with hy | hy
        · exact ih h (mem_of_getElem? hget) y hy
        · rw [mem_singleton.mp hy]
          exact ⟨hkey.symm, hjoin.1.symm⟩
    · rw [hattach] at hg
      rcases mem_append.mp hg with hg | hg
      · exact ih g hg y hy
      · rw [mem_singleton] at hg
        subst hg
        rw [mem_singleton.mp hy]
        exact ⟨rfl, rfl⟩

/-! ### Items that share a group -/

/-- An item of another key leaves the newest group of a key alone. -/
theorem newestOf_attach_of_ne {k : κ} {z : α} {i : Nat} (hz : key z ≠ k)
    (h : newestOf key k groups = some (i, g)) :
    newestOf key k (attach key val groups z) = some (i, g) := by
  obtain ⟨hg, hk, hnewer⟩ := newestOf_eq_some_iff.mp h
  rcases attach_cases key val groups z with
    ⟨j, g', hg', -, hattach⟩ | ⟨hattach, -⟩
  · obtain ⟨hget', hk', -⟩ := newestOf_eq_some_iff.mp hg'
    have hij : j ≠ i := by
      rintro rfl
      rw [hg] at hget'
      cases hget'
      exact hz (hk'.symm.trans hk)
    rw [hattach, newestOf_eq_some_iff]
    refine ⟨by rw [getElem?_set_ne hij]; exact hg, hk, ?_⟩
    intro m x hm hx
    rw [getElem?_set] at hx
    split at hx
    · split at hx
      · cases hx
        intro he
        exact hz (hk'.symm.trans he)
      · cases hx
    · exact hnewer m x hm hx
  · rw [hattach, newestOf_eq_some_iff]
    refine ⟨getElem?_concat_iff.mpr (.inl hg), hk, ?_⟩
    intro m x hm hx
    rcases getElem?_concat_iff.mp hx with hx | ⟨-, rfl⟩
    · exact hnewer m x hm hx
    · exact hz

theorem newestOf_foldl_of_ne {k : κ} {i : Nat} {g : α × List α} :
    ∀ {l : List α} {groups : List (α × List α)}, (∀ z ∈ l, key z ≠ k) →
    newestOf key k groups = some (i, g) →
    newestOf key k (l.foldl (attach key val) groups) = some (i, g)
  | [], _, _, h => h
  | z :: l, groups, hl, h => by
    rw [foldl_cons]
    exact newestOf_foldl_of_ne (fun y hy => hl y (mem_cons_of_mem z hy))
      (newestOf_attach_of_ne (hl z mem_cons_self) h)

/-- An item is in the newest group of its key, and that group has its value if the item
has one. -/
theorem newestOf_attach_self (key : α → κ) (val : α → Option β)
    (groups : List (α × List α)) (x : α) :
    ∃ i g, newestOf key (key x) (attach key val groups x) = some (i, g) ∧ x ∈ g.2 ∧
      val g.1 = val x := by
  rcases attach_cases key val groups x with
    ⟨i, g, hg, hjoin, hattach⟩ | ⟨hattach, -⟩
  · obtain ⟨hget, hk, hnewer⟩ := newestOf_eq_some_iff.mp hg
    refine ⟨i, (g.1, g.2 ++ [x]), ?_, by simp, hjoin.1⟩
    rw [hattach, newestOf_eq_some_iff]
    refine ⟨getElem?_set_self (List.getElem?_eq_some_iff.mp hget).1, hk, ?_⟩
    intro j h hj hh
    rw [getElem?_set_ne (by omega)] at hh
    exact hnewer j h hj hh
  · refine ⟨groups.length, (x, [x]), ?_, by simp, rfl⟩
    rw [hattach, newestOf_eq_some_iff]
    refine ⟨getElem?_concat_length, rfl, ?_⟩
    intro j h hj hh
    rw [getElem?_eq_none (by simp; omega)] at hh
    cases hh

/-- Groups only grow. -/
theorem exists_superset_attach (key : α → κ) (val : α → Option β) (hg : g ∈ groups) (x : α) :
    ∃ h ∈ attach key val groups x, h.1 = g.1 ∧ g.2 ⊆ h.2 := by
  rcases attach_cases key val groups x with
    ⟨i, g', hg', -, hattach⟩ | ⟨hattach, -⟩
  · obtain ⟨pre, post, hsplit, -, hset⟩ := split_at (newestOf_eq_some_iff.mp hg').1
    rw [hattach, hset]
    rw [hsplit] at hg
    rcases mem_append.mp hg with hg | hg
    · exact ⟨g, mem_append_left _ hg, rfl, List.Subset.refl _⟩
    · rcases mem_cons.mp hg with rfl | hg
      · exact ⟨(g.1, g.2 ++ [x]), by simp, rfl, subset_append_left _ _⟩
      · exact ⟨g, mem_append_right _ (mem_cons_of_mem _ hg), rfl, List.Subset.refl _⟩
  · rw [hattach]
    exact ⟨g, mem_append_left _ hg, rfl, List.Subset.refl _⟩

theorem exists_superset_foldl (key : α → κ) (val : α → Option β) {g : α × List α} :
    ∀ (l : List α) {groups : List (α × List α)}, g ∈ groups →
    ∃ h ∈ l.foldl (attach key val) groups, h.1 = g.1 ∧ g.2 ⊆ h.2
  | [], _, hg => ⟨g, hg, rfl, List.Subset.refl _⟩
  | x :: l, groups, hg => by
    obtain ⟨h, hh, hhead, hsub⟩ := exists_superset_attach key val hg x
    obtain ⟨h', hh', hhead', hsub'⟩ := exists_superset_foldl key val l hh
    exact ⟨h', hh', hhead'.trans hhead, fun z hz => hsub' (hsub hz)⟩

/-- **Neighbours of one key and value share a group.** -/
theorem group_joined (key : α → κ) (val : α → Option β) (l₁ l₂ l₃ : List α) {x y : α}
    (hkey : key x = key y) (hjoin : Joins val x y) (hbetween : ∀ z ∈ l₂, key z ≠ key x) :
    ∃ g ∈ group key val (l₁ ++ x :: l₂ ++ y :: l₃), x ∈ g.2 ∧ y ∈ g.2 := by
  obtain ⟨i, g, hg, hx, hval⟩ := newestOf_attach_self key val (group key val l₁) x
  have hkept : newestOf key (key y) (l₂.foldl (attach key val)
      (attach key val (group key val l₁) x)) = some (i, g) := by
    rw [← hkey]
    exact newestOf_foldl_of_ne hbetween hg
  have hfold : group key val (l₁ ++ x :: l₂ ++ y :: l₃)
      = l₃.foldl (attach key val) (attach key val (l₂.foldl (attach key val)
          (attach key val (group key val l₁) x)) y) := by
    simp [group]
  rw [hfold]
  generalize l₂.foldl (attach key val) (attach key val (group key val l₁) x) = groups at hkept
  -- the second item finds the group of the first
  have hboth : ∃ h ∈ attach key val groups y, x ∈ h.2 ∧ y ∈ h.2 := by
    rcases attach_cases key val groups y with ⟨j, g', hg', -, hattach⟩ | ⟨-, hno⟩
    · rw [hkept] at hg'
      cases hg'
      refine ⟨(g.1, g.2 ++ [y]), ?_, by simp [hx], by simp⟩
      rw [hattach]
      have hi := (List.getElem?_eq_some_iff.mp (newestOf_eq_some_iff.mp hkept).1).1
      exact mem_set hi _
    · exact absurd ⟨hval.trans hjoin.1, hjoin.2⟩ (hno i g hkept)
  obtain ⟨h, hh, hxh, hyh⟩ := hboth
  obtain ⟨h', hh', -, hsub⟩ := exists_superset_foldl key val l₃ hh
  exact ⟨h', hh', hsub hxh, hsub hyh⟩

/-! ### Items that are alone -/

/-- No two items of one key and value have no item of that key between them. -/
def Apart (key : α → κ) (val : α → Option β) (l : List α) : Prop :=
  ∀ l₁ x l₂ y l₃, l = l₁ ++ x :: l₂ ++ y :: l₃ → key x = key y → (∀ z ∈ l₂, key z ≠ key x) →
    ¬ Joins val x y

/-- **Where no neighbours join, every item is alone.** -/
theorem group_eq_map {l : List α} (h : Apart key val l) :
    group key val l = l.map fun x => (x, [x]) := by
  induction l using reverseRecOn with
  | nil => rfl
  | append_singleton l y ih =>
    have hl : Apart key val l := by
      intro l₁ x l₂ z l₃ hsplit
      exact h l₁ x l₂ z (l₃ ++ [y]) (by simp [hsplit])
    rw [group_concat, ih hl, map_append]
    rcases attach_cases key val (l.map fun x => (x, [x])) y with
      ⟨i, g, hg, hjoin, -⟩ | ⟨hattach, -⟩
    · obtain ⟨hget, hk, hnewer⟩ := newestOf_eq_some_iff.mp hg
      rw [getElem?_map] at hget
      obtain ⟨x, hx, rfl⟩ := Option.map_eq_some_iff.mp hget
      obtain ⟨l₁, l₂, hsplit, hlen, -⟩ := split_at hx
      refine absurd hjoin (h l₁ x l₂ y [] (by simp [hsplit]) hk ?_)
      intro z hz hzk
      obtain ⟨m, hm⟩ := getElem?_of_mem hz
      refine hnewer (i + 1 + m) (z, [z]) (by omega) ?_ (hzk.trans hk)
      rw [getElem?_map, hsplit, ← hlen, getElem?_append_right (by omega),
        show l₁.length + 1 + m - l₁.length = m + 1 by omega, getElem?_cons_succ, hm]
      rfl
    · exact hattach

end SchemaSanitizer.Lib
