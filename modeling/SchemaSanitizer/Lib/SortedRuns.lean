/-
SchemaSanitizer/Lib/SortedRuns.lean

Grouping by sorting: a list is sorted by a key and cut where the key changes.
Nothing here is about schemas.

* `sortedRuns_perm`: every item is in exactly one run.
* `sortedRuns_uniform`, `sortedRuns_apart`: the items of a run share a key, and
  different runs have different keys.
* `mem_sortedRun_iff`: a run is the set of all items of its key.
* `sortedRuns_map`: a run of images is the image of a run.
-/
import Mathlib.Data.List.Sort
import Mathlib.Data.List.SplitBy

namespace SchemaSanitizer.Lib

open List

variable {α β κ : Type*} [LE κ] [DecidableLE κ] [BEq κ]

variable {key : α → κ} {l : List α}

/-- The runs of one key in the list sorted by keys. -/
def sortedRuns (key : α → κ) (l : List α) : List (List α) :=
  (l.insertionSort fun a b => key a ≤ key b).splitBy fun a b => key a == key b

theorem sortedRuns_perm (key : α → κ) (l : List α) : (sortedRuns key l).flatten.Perm l := by
  rw [sortedRuns, flatten_splitBy]
  exact perm_insertionSort _ l

theorem sortedRuns_ne_nil {run : List α} (h : run ∈ sortedRuns key l) : run ≠ [] :=
  ne_nil_of_mem_splitBy h

/-- The key changes from each run to the next one. -/
theorem sortedRuns_isChain (key : α → κ) (l : List α) : (sortedRuns key l).IsChain fun g h =>
    ∃ hg hh, (key (g.getLast hg) == key (h.head hh)) = false :=
  isChain_getLast_head_splitBy (fun a b => key a == key b) _

/-- **Runs of images** are the images of the runs. -/
theorem sortedRuns_map (key : α → κ) (f : β → α) (l : List β) :
    sortedRuns key (l.map f) = (sortedRuns (fun b => key (f b)) l).map (List.map f) := by
  rw [sortedRuns, splitBy_eq_iff]
  refine ⟨?_, ?_, ?_, ?_⟩
  · rw [← map_flatten, sortedRuns, flatten_splitBy]
    exact (map_insertionSort _ _ f l fun _ _ _ _ => Iff.rfl).symm
  · intro hnil
    obtain ⟨run, hrun, hempty⟩ := mem_map.mp hnil
    exact sortedRuns_ne_nil hrun (map_eq_nil_iff.mp hempty)
  · intro image himage
    obtain ⟨run, hrun, rfl⟩ := mem_map.mp himage
    exact (isChain_map f).mpr (isChain_of_mem_splitBy hrun)
  · refine (isChain_map _).mpr ((sortedRuns_isChain _ l).imp ?_)
    rintro g h ⟨hg, hh, hne⟩
    refine ⟨by simpa using hg, by simpa using hh, ?_⟩
    rw [getLast_map, head_map]
    exact hne

variable [LawfulBEq κ]

omit [LE κ] [DecidableLE κ] in
/-- Equal keys of neighbours are equal keys of all. -/
theorem keys_eq_of_isChain {run : List α} (h : run.IsChain fun a b => key a == key b) :
    ∀ a ∈ run, ∀ b ∈ run, key a = key b := by
  have hkeys : run.Pairwise fun a b => key a = key b := by
    have : IsTrans α fun a b => key a = key b := ⟨fun _ _ _ hab hbc => hab.trans hbc⟩
    apply List.IsChain.pairwise
    exact h.imp fun a b hab => eq_of_beq hab
  have : Std.Symm fun a b : α => key a = key b := ⟨fun _ _ h => h.symm⟩
  intro a ha b hb
  by_cases hab : a = b
  · rw [hab]
  · exact hkeys.forall ha hb hab

theorem sortedRuns_uniform {run : List α} (h : run ∈ sortedRuns key l) :
    ∀ a ∈ run, ∀ b ∈ run, key a = key b :=
  keys_eq_of_isChain (isChain_of_mem_splitBy h)

omit [DecidableLE κ] in
/-- Runs in order whose keys change from each one to the next have different keys. -/
theorem keys_ne_of_isChain (hanti : ∀ a b : κ, a ≤ b → b ≤ a → a = b) :
    ∀ {runs : List (List α)}, (∀ run ∈ runs, run ≠ []) →
      (∀ run ∈ runs, ∀ a ∈ run, ∀ b ∈ run, key a = key b) →
      runs.Pairwise (fun g h => ∀ a ∈ g, ∀ b ∈ h, key a ≤ key b) →
      (runs.IsChain fun g h => ∃ hg hh, (key (g.getLast hg) == key (h.head hh)) = false) →
      runs.Pairwise fun g h => ∀ a ∈ g, ∀ b ∈ h, key a ≠ key b
  | [], _, _, _, _ => List.Pairwise.nil
  | [_], _, _, _, _ => pairwise_singleton _ _
  | g :: h :: runs, hne, huniform, hsorted, hchain => by
    obtain ⟨hle, hsorted⟩ := pairwise_cons.mp hsorted
    obtain ⟨⟨hg, hh, hneq⟩, hchain⟩ := isChain_cons_cons.mp hchain
    have hrest := keys_ne_of_isChain hanti (fun r hr => hne r (mem_cons_of_mem g hr))
      (fun r hr => huniform r (mem_cons_of_mem g hr)) hsorted hchain
    refine pairwise_cons.mpr ⟨fun r hr a ha b hb hab => ?_, hrest⟩
    -- the key of the next run lies between the two, so it is equal to both
    have hnext := head_mem hh
    have hlow : key a ≤ key (h.head hh) := hle h mem_cons_self a ha _ hnext
    have hhigh : key (h.head hh) ≤ key a := by
      rcases mem_cons.mp hr with rfl | hr
      · rw [hab, huniform r (mem_cons_of_mem g mem_cons_self) _ hnext b hb]
        exact hab ▸ hle r mem_cons_self a ha b hb
      · rw [hab]
        exact (pairwise_cons.mp hsorted).1 r hr _ hnext b hb
    have hlast := huniform g mem_cons_self a ha _ (getLast_mem hg)
    rw [← hlast, hanti _ _ hlow hhigh, beq_self_eq_true] at hneq
    cases hneq

section Ordered

variable (hanti : ∀ a b : κ, a ≤ b → b ≤ a → a = b) (htotal : ∀ a b : κ, a ≤ b ∨ b ≤ a)
  (htrans : ∀ a b c : κ, a ≤ b → b ≤ c → a ≤ c)

include hanti htotal htrans

/-- **Different runs have different keys.** -/
theorem sortedRuns_apart (key : α → κ) (l : List α) :
    (sortedRuns key l).Pairwise fun g h => ∀ a ∈ g, ∀ b ∈ h, key a ≠ key b := by
  have : Std.Total fun a b : α => key a ≤ key b := ⟨fun a b => htotal (key a) (key b)⟩
  have : IsTrans α fun a b => key a ≤ key b := ⟨fun a b c => htrans (key a) (key b) (key c)⟩
  have hsorted : (sortedRuns key l).flatten.Pairwise fun a b => key a ≤ key b := by
    rw [sortedRuns, flatten_splitBy]
    exact pairwise_insertionSort _ l
  exact keys_ne_of_isChain hanti (fun _ => sortedRuns_ne_nil) (fun _ => sortedRuns_uniform)
    (pairwise_flatten.mp hsorted).2 (sortedRuns_isChain key l)

/-- **A run holds all items of its key.** -/
theorem mem_sortedRun_iff {run : List α} (h : run ∈ sortedRuns key l) {a : α} (ha : a ∈ run)
    {b : α} : b ∈ run ↔ b ∈ l ∧ key b = key a := by
  constructor
  · intro hb
    refine ⟨(sortedRuns_perm key l).subset (mem_flatten.mpr ⟨run, h, hb⟩), ?_⟩
    exact sortedRuns_uniform h b hb a ha
  · rintro ⟨hb, hkey⟩
    obtain ⟨other, hother, hbo⟩ :=
      mem_flatten.mp ((sortedRuns_perm key l).mem_iff.mpr hb)
    by_cases hsame : other = run
    · rw [← hsame]
      exact hbo
    · have : Std.Symm fun g h : List α => ∀ a ∈ g, ∀ b ∈ h, key a ≠ key b :=
        ⟨fun _ _ h a ha b hb => (h b hb a ha).symm⟩
      have hne := (sortedRuns_apart hanti htotal htrans key l).forall hother h hsame
      exact absurd hkey (hne b hbo a ha)

end Ordered

end SchemaSanitizer.Lib
