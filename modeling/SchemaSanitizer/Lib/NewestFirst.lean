/-
SchemaSanitizer/Lib/NewestFirst.lean

Scanning a growing list from its newest end.  Nothing here is about schemas.

* `lastMatch? g l` probes the entries of `l` from the last to the first and
  returns the first result `g` gives.  Its two specifications say where the
  hit stands and that every newer entry failed.
* `firstFree` counts upwards from a start until a number is free.  Run with the
  length of the list of taken names as fuel it always finds one
  (`firstFree_spec`), by the pigeonhole principle.
-/
import Mathlib

namespace SchemaSanitizer.Lib

open List

variable {α β : Type*}

/-! ### Newest match -/

variable {l : List α} {γ : Type*}

/-- The result of `g` at the newest entry (with its position) where it gives
one. -/
def lastMatch? (g : Nat → α → Option β) (l : List α) : Option β :=
  l.zipIdx.reverse.findSome? fun p => g p.2 p.1

theorem lastMatch?_eq_none_iff {g : Nat → α → Option β} :
    lastMatch? g l = none ↔ ∀ i x, l[i]? = some x → g i x = none := by
  simp only [lastMatch?, findSome?_eq_none_iff, mem_reverse, Prod.forall]
  constructor
  · intro h i x hx
    exact h x i (mk_mem_zipIdx_iff_getElem?.mpr hx)
  · intro h x i hx
    exact h i x (mk_mem_zipIdx_iff_getElem?.mp hx)

theorem lastMatch?_concat (g : Nat → α → Option β) (l : List α) (a : α) :
    lastMatch? g (l ++ [a]) = (g l.length a).or (lastMatch? g l) := by
  rcases e : g l.length a with - | b <;>
    simp [lastMatch?, zipIdx_append, e]

theorem getElem?_concat_iff {a x : α} {i : Nat} :
    (l ++ [a])[i]? = some x ↔ l[i]? = some x ∨ i = l.length ∧ a = x := by
  rcases lt_trichotomy i l.length with h | rfl | h
  · simp [getElem?_append_left h, h.ne]
  · simp
  · simp [getElem?_eq_none (show l.length ≤ i by omega), h.ne',
      getElem?_eq_none (show (l ++ [a]).length ≤ i by simp; omega)]

/-- The last match matches, and nothing after it does. -/
theorem lastMatch?_eq_some_iff {g : Nat → α → Option β} {b : β} :
    lastMatch? g l = some b ↔
      ∃ i x, l[i]? = some x ∧ g i x = some b ∧
        ∀ j y, i < j → l[j]? = some y → g j y = none := by
  induction l using List.reverseRecOn with
  | nil => simp [lastMatch?]
  | append_singleton l a ih =>
    simp only [lastMatch?_concat, getElem?_concat_iff]
    rcases e : g l.length a with - | c
    · -- the newest entry fails: the hit, if any, is an older one
      rw [Option.none_or, ih]
      constructor
      · rintro ⟨i, x, hx, hg, hnewer⟩
        refine ⟨i, x, .inl hx, hg, ?_⟩
        rintro j y hij (hy | ⟨rfl, rfl⟩)
        · exact hnewer j y hij hy
        · exact e
      · rintro ⟨i, x, hx | ⟨rfl, rfl⟩, hg, hnewer⟩
        · exact ⟨i, x, hx, hg, fun j y hij hy => hnewer j y hij (.inl hy)⟩
        · rw [e] at hg
          cases hg
    · -- the newest entry is the hit
      rw [Option.some_or]
      constructor
      · intro hb
        refine ⟨l.length, a, .inr ⟨rfl, rfl⟩, e.trans hb, ?_⟩
        rintro j y hj (hy | ⟨rfl, -⟩)
        · exact absurd hj (lt_asymm (List.getElem?_eq_some_iff.mp hy).1)
        · exact absurd hj (lt_irrefl _)
      · rintro ⟨i, x, hx | ⟨rfl, rfl⟩, hg, hnewer⟩
        · have hlast := hnewer _ a (List.getElem?_eq_some_iff.mp hx).1 (.inr ⟨rfl, rfl⟩)
          rw [e] at hlast
          cases hlast
        · rw [← e, hg]

theorem lastMatch?_map (f : γ → α) (g : Nat → α → Option β) (l : List γ) :
    lastMatch? g (l.map f) = lastMatch? (fun i x => g i (f x)) l := by
  induction l using List.reverseRecOn with
  | nil => rfl
  | append_singleton l x ih =>
    rw [map_append, map_singleton, lastMatch?_concat, lastMatch?_concat, ih,
      length_map]

theorem map_lastMatch? (g : Nat → α → Option β) (h : β → γ) (l : List α) :
    (lastMatch? g l).map h = lastMatch? (fun i x => (g i x).map h) l := by
  induction l using List.reverseRecOn with
  | nil => rfl
  | append_singleton l x ih =>
    rw [lastMatch?_concat, lastMatch?_concat, ← ih]
    rcases g l.length x with - | b <;> rfl

theorem split_at {i : Nat} {x : α} (hx : l[i]? = some x) :
    ∃ pre post, l = pre ++ x :: post ∧ pre.length = i ∧ ∀ y, l.set i y = pre ++ y :: post := by
  obtain ⟨hi, rfl⟩ := List.getElem?_eq_some_iff.mp hx
  refine ⟨l.take i, l.drop (i + 1), ?_, ?_, ?_⟩
  · rw [List.getElem_cons_drop, List.take_append_drop]
  · rw [List.length_take]
    omega
  · intro y
    rw [set_eq_take_append_cons_drop, if_pos hi]

/-! ### First free number -/

/-- Count upwards from a start while the number is taken. -/
def firstFree (taken : Nat → Bool) : Nat → Nat → Nat
  | 0, n => n
  | fuel + 1, n => if taken n then firstFree taken fuel (n + 1) else n

theorem le_firstFree (taken : Nat → Bool) : ∀ fuel n, n ≤ firstFree taken fuel n
  | 0, n => le_rfl
  | fuel + 1, n => by
    rw [firstFree]
    split
    · exact (Nat.le_succ n).trans (le_firstFree taken fuel (n + 1))
    · exact le_rfl

theorem firstFree_of_free {taken : Nat → Bool} {n : Nat} (h : taken n = false) :
    ∀ fuel, firstFree taken fuel n = n
  | 0 => rfl
  | fuel + 1 => by simp [firstFree, h]

theorem firstFree_taken (taken : Nat → Bool) : ∀ {fuel n},
    taken (firstFree taken fuel n) = true → ∀ k ≤ fuel, taken (n + k) = true
  | 0, n, h, k, hk => by
    obtain rfl : k = 0 := by omega
    exact h
  | fuel + 1, n, h, k, hk => by
    rw [firstFree] at h
    by_cases hn : taken n = true
    · rw [if_pos hn] at h
      rcases k with - | k
      · exact hn
      · have := firstFree_taken taken h k (by omega)
        rwa [show n + (k + 1) = n + 1 + k by omega]
    · rw [if_neg hn] at h
      exact absurd h hn

/-- With distinct names for distinct numbers, as many steps as there are
taken names reach a free one. -/
theorem firstFree_spec {name : Nat → γ} (hinj : Function.Injective name) {used : List γ}
    {taken : Nat → Bool} (htaken : ∀ v, taken v = true ↔ name v ∈ used) (n : Nat) :
    name (firstFree taken used.length n) ∉ used := by
  intro hmem
  have hall := firstFree_taken taken ((htaken _).mpr hmem)
  have hsub : (List.range (used.length + 1)).map (fun k => name (n + k)) ⊆ used := by
    intro x hx
    obtain ⟨k, hk, rfl⟩ := mem_map.mp hx
    exact (htaken _).mp (hall k (Nat.lt_succ_iff.mp (mem_range.mp hk)))
  have hnodup : ((List.range (used.length + 1)).map fun k => name (n + k)).Nodup :=
    nodup_range.map fun a b hab => Nat.add_left_cancel (hinj hab)
  have hlen := (subperm_of_subset hnodup hsub).length_le
  simp at hlen

end SchemaSanitizer.Lib
