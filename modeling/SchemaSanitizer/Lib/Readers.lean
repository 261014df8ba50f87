/-
SchemaSanitizer/Lib/Readers.lean

Readers of texts: computations on the letters that are left, which may fail with a
message.  Nothing here is about a particular format.

`Reads p written a` is the round trip of one piece of a text: `p` consumes exactly
`written`, whatever follows it, and returns `a`.  The rules put pieces together in the
order in which they are written.
-/
import Mathlib

namespace SchemaSanitizer.Lib

open List

variable {σ α β : Type}

/-- A computation on the letters that are left. -/
abbrev Reader (σ : Type) := StateT (List σ) (Except String)

/-- The reader fails unless the check holds. -/
def require (check : Prop) [Decidable check] (message : String) : Reader σ Unit :=
  if check then pure () else throw message

/-- The reader fails unless so many letters are left. -/
def requireRemaining (size : Nat) (message : String) : Reader σ Unit := do
  require (size ≤ (← get).length) message

/-- The next letter. -/
def readLetter (message : String) : Reader σ σ := do
  match ← get with
  | [] => throw message
  | letter :: letters => set letters; return letter

/-- The loop over the items of a container. -/
def times (skip : Reader σ Unit) : Nat → Reader σ Unit
  | 0 => pure ()
  | size + 1 => do skip; times skip size

/-- `p` consumes exactly `written`, whatever follows it, and returns `a`. -/
def Reads (p : Reader σ α) (written : List σ) (a : α) : Prop :=
  ∀ rest, p.run (written ++ rest) = .ok (a, rest)

section Reads

variable {p : Reader σ α} {written later : List σ} {a : α} {b : β} {message : String}
  {f : Unit → Reader σ β}

theorem Reads.bind {f : α → Reader σ β} (hp : Reads p written a) (hf : Reads (f a) later b) :
    Reads (p >>= f) (written ++ later) b := by
  intro rest
  rw [append_assoc, StateT.run_bind, hp]
  exact hf rest

theorem Reads.map (hp : Reads p written a) (g : α → β) : Reads (g <$> p) written (g a) := by
  intro rest
  rw [StateT.run_map, hp]
  rfl

theorem Reads.next {letter : σ} {f : σ → Reader σ β} (hf : Reads (f letter) later b) :
    Reads (readLetter message >>= f) (letter :: later) b :=
  fun rest => hf rest

theorem Reads.require {check : Prop} [Decidable check] (h : check) (hf : Reads (f ()) written b) :
    Reads (require check message >>= f) written b := by
  rw [Lib.require, if_pos h]
  exact hf

theorem Reads.requireRemaining {size : Nat} (h : size ≤ written.length)
    (hf : Reads (f ()) written b) : Reads (requireRemaining size message >>= f) written b := by
  intro rest
  rw [Lib.requireRemaining, bind_assoc]
  exact Reads.require (by rw [length_append]; omega) hf rest

theorem Reads.times {skip : Reader σ Unit} : ∀ {items : List (List σ)},
    (∀ item ∈ items, Reads skip item ()) → Reads (times skip items.length) items.flatten ()
  | [], _ => fun _ => rfl
  | item :: _, h =>
    (h item mem_cons_self).bind (times fun item hitem => h item (mem_cons_of_mem _ hitem))

end Reads

end SchemaSanitizer.Lib
