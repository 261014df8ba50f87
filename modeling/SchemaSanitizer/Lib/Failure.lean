/-
SchemaSanitizer/Lib/Failure.lean

When does a computation in `Except` fail?  `Fails x` says that the outcome is
an error and forgets which one.  For the combinators of a checker the answer is
compositional: a sequence fails when one of its parts does.  `Together R x y`
compares two computations: both fail, or both succeed with results that `R`
relates.  Nothing here is about schemas.
-/
import Mathlib

namespace SchemaSanitizer.Lib

open List

variable {ε α β γ : Type u} {x : Except ε α}

universe u

/-- The outcome is an error. -/
def Fails (x : Except ε α) : Prop := ∃ e, x = .error e

@[simp] theorem fails_error (e : ε) : Fails (.error e : Except ε α) := ⟨e, rfl⟩

@[simp] theorem not_fails_ok (a : α) : ¬ Fails (.ok a : Except ε α) := by
  rintro ⟨e, h⟩
  cases h

/-- A sequence of two computations. -/
theorem fails_bind {f : α → Except ε β} :
    Fails (x >>= f) ↔ Fails x ∨ ∃ a, x = .ok a ∧ Fails (f a) := by
  rcases x with e | a
  · show Fails (.error e : Except ε β) ↔ _
    simp
  · show Fails (f a) ↔ _
    simp

theorem ok_bind (a : α) (f : α → Except ε β) : (Except.ok a >>= f) = f a := rfl

/-- A sequence of two computations that succeeds. -/
theorem bind_eq_ok_iff {f : α → Except ε β} {b : β} :
    x >>= f = .ok b ↔ ∃ a, x = .ok a ∧ f a = .ok b := by
  rcases x with e | a
  · show (.error e : Except ε β) = .ok b ↔ _
    simp
  · show f a = .ok b ↔ _
    simp

@[simp] theorem fails_map {f : α → β} : Fails (x.map f) ↔ Fails x := by
  rcases x with e | a
  · show Fails (.error e : Except ε β) ↔ _
    simp
  · show Fails (.ok (f a) : Except ε β) ↔ _
    simp

/-- A second computation that does not depend on the result of the first. -/
theorem fails_seq {y : Except ε β} {f : α → β → γ} :
    Fails (x >>= fun a => y >>= fun b => .ok (f a b)) ↔ Fails x ∨ Fails y := by
  rw [fails_bind]
  rcases x with e | a
  · simp
  · rcases y with e | b
    · show _ ∨ (∃ a', _ ∧ Fails (.error e : Except ε γ)) ↔ _
      simp
    · show _ ∨ (∃ a', _ ∧ Fails (.ok (f a' b) : Except ε γ)) ↔ _
      simp

/-- Loops whose rounds agree on the items of the list. -/
theorem mapM_congr {f g : α → Except ε β} : ∀ {l : List α}, (∀ a ∈ l, f a = g a) →
    l.mapM f = l.mapM g
  | [], _ => rfl
  | a :: l, h => by
    rw [mapM_cons, mapM_cons, h a mem_cons_self,
      mapM_congr fun b hb => h b (mem_cons_of_mem a hb)]

/-- A loop over a list fails when one round does. -/
theorem fails_mapM {f : α → Except ε β} : ∀ {l : List α}, Fails (l.mapM f) ↔ ∃ x ∈ l, Fails (f x)
  | [] => by
    show Fails (.ok []) ↔ _
    simp
  | a :: l => by
    rw [mapM_cons]
    show Fails (f a >>= fun b => l.mapM f >>= fun bs => .ok (b :: bs)) ↔ _
    rw [fails_seq, fails_mapM]
    simp

/-! ### Two computations -/

/-- Both computations fail, or both succeed and their results are related. -/
inductive Together (R : α → β → Prop) : Except ε α → Except ε β → Prop
  | ok {a : α} {b : β} (h : R a b) : Together R (.ok a) (.ok b)
  | error {e e' : ε} : Together R (.error e) (.error e')

namespace Together

variable {δ : Type u} {R : α → β → Prop} {S : γ → δ → Prop} {x : Except ε α} {y : Except ε β}

theorem of_fails (hx : Fails x) (hy : Fails y) : Together R x y := by
  obtain ⟨e, rfl⟩ := hx
  obtain ⟨e', rfl⟩ := hy
  exact .error

/-- Sequences succeed together when their parts do, whatever the first parts gave. -/
theorem bind_of_ok {f : α → Except ε γ} {g : β → Except ε δ} (h : Together R x y)
    (hfg : ∀ a b, x = .ok a → y = .ok b → R a b → Together S (f a) (g b)) :
    Together S (x >>= f) (y >>= g) := by
  cases h with
  | ok hab => exact hfg _ _ rfl rfl hab
  | error => exact .error

/-- Sequences succeed together when their parts do. -/
theorem bind {f : α → Except ε γ} {g : β → Except ε δ} (h : Together R x y)
    (hfg : ∀ a b, R a b → Together S (f a) (g b)) : Together S (x >>= f) (y >>= g) :=
  h.bind_of_ok fun a b _ _ hab => hfg a b hab

theorem mono {T : α → β → Prop} (h : Together R x y) (hRT : ∀ a b, R a b → T a b) :
    Together T x y := by
  cases h with
  | ok hab => exact .ok (hRT _ _ hab)
  | error => exact .error

theorem fails_iff (h : Together R x y) : Fails x ↔ Fails y := by
  cases h with
  | ok hab => simp
  | error => simp

theorem rel (h : Together R x y) {a : α} {b : β} (hx : x = .ok a) (hy : y = .ok b) : R a b := by
  cases h with
  | ok hab =>
    cases hx
    cases hy
    exact hab
  | error => cases hx

end Together

end SchemaSanitizer.Lib
