/-
SchemaSanitizer/Lib/Runs.lean

Runs of a labelled step relation, and the two invariant rules every machine uses.
Nothing here is about a particular machine.
-/
import Mathlib

namespace SchemaSanitizer.Lib

open List

variable {σ ε : Type} {step : σ → ε → σ → Prop} {start s : σ} {events : List ε} {I : σ → Prop}

/-- The run `events` leads from `start` to a state, one step after the other. -/
inductive Runs (step : σ → ε → σ → Prop) (start : σ) : List ε → σ → Prop
  | nil : Runs step start [] start
  | snoc {events : List ε} {s s' : σ} {e : ε} (h : Runs step start events s) (hs : step s e s') :
      Runs step start (events ++ [e]) s'

/-- **The invariant rule**: what holds at the start and is kept by every step holds
in every state of a run. -/
theorem Runs.invariant (hstart : I start) (hstep : ∀ s e s', I s → step s e s' → I s')
    (h : Runs step start events s) : I s := by
  induction h with
  | nil => exact hstart
  | snoc _ hs ih => exact hstep _ _ _ ih hs

/-- The invariant rule for runs in which only some events occur. -/
theorem Runs.invariant_of {E : ε → Prop} (hstart : I start)
    (hstep : ∀ s e s', I s → E e → step s e s' → I s') (h : Runs step start events s)
    (hevents : ∀ e ∈ events, E e) : I s := by
  induction h with
  | nil => exact hstart
  | snoc _ hs ih =>
    exact hstep _ _ _ (ih fun e he => hevents e (mem_append_left _ he))
      (hevents _ (mem_append_right _ (mem_singleton.mpr rfl))) hs

/-- An event that no state of an invariant allows does not occur. -/
theorem Runs.not_mem {bad : ε} (hstart : I start) (hstep : ∀ s e s', I s → step s e s' → I s')
    (hbad : ∀ s s', I s → ¬ step s bad s') (h : Runs step start events s) : bad ∉ events := by
  induction h with
  | nil => exact not_mem_nil
  | snoc hrun hs ih =>
    intro hmem
    rcases mem_append.mp hmem with hmem | hmem
    · exact ih hmem
    · obtain rfl := mem_singleton.mp hmem
      exact hbad _ _ (hrun.invariant hstart hstep) hs

/-- A machine whose steps are a function runs as the function is iterated. -/
theorem Runs.of_foldlM {next : σ → ε → Option σ} (h : events.foldlM next start = some s) :
    Runs (fun s e s' => next s e = some s') start events s := by
  induction events using List.reverseRecOn generalizing s with
  | nil =>
    cases h
    exact .nil
  | append_singleton events e ih =>
    rw [foldlM_append] at h
    obtain ⟨s₀, hrun, hlast⟩ := Option.bind_eq_some_iff.mp h
    rw [foldlM_cons] at hlast
    obtain ⟨s₁, hs, hnil⟩ := Option.bind_eq_some_iff.mp hlast
    cases hnil
    exact (ih hrun).snoc hs

end SchemaSanitizer.Lib
