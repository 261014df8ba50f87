/-
SchemaSanitizer/Lib/Faults.lean

Commands on a persistent state in which every operation may fail or be the last
one of its process.  Nothing here is about files or journals.

A command runs under a schedule with one entry per operation: the operation works,
it fails with an error, or the process dies in it.  An operation that does not work
may leave something torn behind.  A command that raises goes on in the handlers
around it; a process that dies runs nothing any more, no handler and no cleanup.

`Act.Ensures` is the rule of pre- and postconditions: it speaks about every
schedule and gives one postcondition for each of the three ways to end.
-/
import Mathlib

namespace SchemaSanitizer.Lib

variable {τ σ ε α β : Type}

/-- What goes wrong at one operation, with what it leaves behind. -/
inductive Fault (τ ε : Type)
  | fail (error : ε) (torn : τ)
  | die (torn : τ)
  deriving DecidableEq, Repr

/-- The faults of a run, one entry per operation; after the end nothing goes wrong. -/
abbrev Schedule (τ ε : Type) := List (Option (Fault τ ε))

/-- How a command ends. -/
inductive Outcome (ε α : Type)
  | returned (a : α)
  | raised (e : ε)
  | died
  deriving DecidableEq, Repr

/-- The end of a run: the outcome, the state, and the rest of the schedule. -/
structure Ended (τ σ ε α : Type) where
  outcome : Outcome ε α
  state : σ
  faults : Schedule τ ε
  deriving DecidableEq, Repr

/-- A command. -/
def Act (τ σ ε α : Type) := σ → Schedule τ ε → Ended τ σ ε α

namespace Act

/-- The command that does nothing. -/
def ret (a : α) : Act τ σ ε α := fun s faults => ⟨.returned a, s, faults⟩

/-- One command, and then another with its result. -/
def andThen (c : Act τ σ ε α) (k : α → Act τ σ ε β) : Act τ σ ε β := fun s faults =>
  match c s faults with
  | ⟨.returned a, s, faults⟩ => k a s faults
  | ⟨.raised e, s, faults⟩ => ⟨.raised e, s, faults⟩
  | ⟨.died, s, faults⟩ => ⟨.died, s, faults⟩

instance : Monad (Act τ σ ε) where
  pure := ret
  bind := andThen

/-- The command that raises an error. -/
def raise (e : ε) : Act τ σ ε α := fun s faults => ⟨.raised e, s, faults⟩

/-- One operation: `work` if it works, `tear` of what is left behind if not. -/
def op (work : σ → σ) (tear : τ → σ → σ) : Act τ σ ε Unit := fun s faults =>
  match faults with
  | [] => ⟨.returned (), work s, []⟩
  | none :: faults => ⟨.returned (), work s, faults⟩
  | some (.fail e torn) :: faults => ⟨.raised e, tear torn s, faults⟩
  | some (.die torn) :: faults => ⟨.died, tear torn s, faults⟩

/-- An operation with all of its effect or none. -/
def atomic (work : σ → σ) : Act τ σ ε Unit := op work fun _ s => s

/-- The state, without an operation. -/
def look (f : σ → α) : Act τ σ ε α := fun s faults => ⟨.returned (f s), s, faults⟩

/-- `try: ... except: ...`. -/
def catching (c : Act τ σ ε α) (handler : ε → Act τ σ ε α) : Act τ σ ε α := fun s faults =>
  match c s faults with
  | ⟨.raised e, s, faults⟩ => handler e s faults
  | ended => ended

/-- `try: ... finally: ...`; an error of the cleanup replaces that of the command. -/
def cleaning (c : Act τ σ ε α) (cleanup : Act τ σ ε Unit) : Act τ σ ε α := fun s faults =>
  match c s faults with
  | ⟨.returned a, s, faults⟩ => (cleanup.andThen fun _ => ret a) s faults
  | ⟨.raised e, s, faults⟩ => (cleanup.andThen fun _ => raise e) s faults
  | ended => ended

/-- The value of a computation that may fail without an operation. -/
def ofExcept : Except ε α → Act τ σ ε α
  | .ok a => ret a
  | .error e => raise e

/-! ### Pre- and postconditions -/

variable {work : σ → σ} {M : α → σ → Prop} {a : α} {f : σ → α} {tear : τ → σ → σ}
  {k : α → Act τ σ ε β} {handler : ε → Act τ σ ε α}

/-- **What a command ensures**, whatever goes wrong: from a state with `P` it ends with
`Q` if it returns, with `R` if it raises, and with `D` if the process dies in it. -/
def Ensures (P : σ → Prop) (c : Act τ σ ε α) (Q : α → σ → Prop) (R D : σ → Prop) : Prop :=
  ∀ s faults, P s →
    match c s faults with
    | ⟨.returned a, s, _⟩ => Q a s
    | ⟨.raised _, s, _⟩ => R s
    | ⟨.died, s, _⟩ => D s

section Rules

variable {P R D : σ → Prop} {Q : α → σ → Prop} {c : Act τ σ ε α}

theorem ensures_ret (h : ∀ s, P s → Q a s) : Ensures P (ret a : Act τ σ ε α) Q R D :=
  fun s _ hs => h s hs

theorem ensures_raise {e : ε} (h : ∀ s, P s → R s) : Ensures P (raise e : Act τ σ ε α) Q R D :=
  fun s _ hs => h s hs

theorem ensures_look (h : ∀ s, P s → Q (f s) s) : Ensures P (look f : Act τ σ ε α) Q R D :=
  fun s _ hs => h s hs

theorem ensures_op {Q : Unit → σ → Prop} (hwork : ∀ s, P s → Q () (work s))
    (hfail : ∀ s torn, P s → R (tear torn s)) (hdie : ∀ s torn, P s → D (tear torn s)) :
    Ensures P (op work tear : Act τ σ ε Unit) Q R D := by
  intro s faults hs
  rcases faults with - | ⟨- | ⟨e, torn⟩ | torn, faults⟩
  · exact hwork s hs
  · exact hwork s hs
  · exact hfail s torn hs
  · exact hdie s torn hs

/-- An operation with all of its effect or none. -/
theorem ensures_atomic {Q : Unit → σ → Prop} (hwork : ∀ s, P s → Q () (work s))
    (hfail : ∀ s, P s → R s) (hdie : ∀ s, P s → D s) :
    Ensures P (atomic work : Act τ σ ε Unit) Q R D :=
  ensures_op hwork (fun s _ => hfail s) (fun s _ => hdie s)

/-- The rule of sequences: the two commands meet at `M`. -/
theorem ensures_bind {Q : β → σ → Prop} (hc : Ensures P c M R D)
    (hk : ∀ a, Ensures (M a) (k a) Q R D) : Ensures P (c >>= k) Q R D := by
  intro s faults hs
  have h := hc s faults hs
  show match andThen c k s faults with
    | ⟨.returned a, s, _⟩ => Q a s | ⟨.raised _, s, _⟩ => R s | ⟨.died, s, _⟩ => D s
  rw [andThen]
  rcases hcs : c s faults with ⟨a | e | -, s', faults'⟩
  · rw [hcs] at h
    exact hk a s' faults' h
  · rw [hcs] at h
    exact h
  · rw [hcs] at h
    exact h

/-- The rule of consequence. -/
theorem Ensures.mono {P' : σ → Prop} {Q' : α → σ → Prop} {R' D' : σ → Prop}
    (h : Ensures P c Q R D) (hP : ∀ s, P' s → P s) (hQ : ∀ a s, Q a s → Q' a s)
    (hR : ∀ s, R s → R' s) (hD : ∀ s, D s → D' s) : Ensures P' c Q' R' D' := by
  intro s faults hs
  have hend := h s faults (hP s hs)
  rcases hcs : c s faults with ⟨a | e | -, s', faults'⟩
  · rw [hcs] at hend
    exact hQ a s' hend
  · rw [hcs] at hend
    exact hR s' hend
  · rw [hcs] at hend
    exact hD s' hend

/-- If the postcondition of a death is the weakest, it holds anyway. -/
theorem Ensures.state (h : Ensures P c Q R D) (hQ : ∀ a s, Q a s → D s) (hR : ∀ s, R s → D s)
    {s : σ} (hs : P s) (faults : Schedule τ ε) : D (c s faults).state := by
  have hend := h s faults hs
  generalize c s faults = ended at hend ⊢
  obtain ⟨a | e | -, s', rest⟩ := ended
  · exact hQ a s' hend
  · exact hR s' hend
  · exact hend

/-- A fact that the precondition gives and that is not about the state. -/
theorem ensures_of_pre {p : Prop} (hp : ∀ s, P s → p) (h : p → Ensures P c Q R D) :
    Ensures P c Q R D :=
  fun s faults hs => h (hp s hs) s faults hs

/-- The handler starts where the command raised. -/
theorem ensures_catching {M : σ → Prop} (hc : Ensures P c Q M D)
    (hh : ∀ e, Ensures M (handler e) Q R D) : Ensures P (catching c handler) Q R D := by
  intro s faults hs
  have h := hc s faults hs
  rw [catching]
  rcases hcs : c s faults with ⟨a | e | -, s', faults'⟩
  · rw [hcs] at h
    exact h
  · rw [hcs] at h
    exact hh e s' faults' h
  · rw [hcs] at h
    exact h

/-- The cleanup runs after both. -/
theorem ensures_cleaning {cleanup : Act τ σ ε Unit} {N : σ → Prop} (hc : Ensures P c M N D)
    (hreturned : ∀ a, Ensures (M a) cleanup (fun _ => Q a) R D)
    (hraised : Ensures N cleanup (fun _ => R) R D) : Ensures P (cleaning c cleanup) Q R D := by
  intro s faults hs
  have h := hc s faults hs
  rw [cleaning]
  rcases hcs : c s faults with ⟨a | e | -, s', faults'⟩
  · rw [hcs] at h
    exact ensures_bind (hreturned a) (fun _ => ensures_ret fun _ hs => hs) s' faults' h
  · rw [hcs] at h
    exact ensures_bind hraised (fun _ => ensures_raise fun _ hs => hs) s' faults' h
  · rw [hcs] at h
    exact h

theorem ensures_ofExcept_bind {x : Except ε β} {k : β → Act τ σ ε α}
    (hok : ∀ b, x = .ok b → Ensures P (k b) Q R D) (herror : ∀ e, x = .error e → ∀ s, P s → R s) :
    Ensures P (ofExcept x >>= k) Q R D := by
  rcases x with e | b
  · exact fun s _ hs => herror e rfl s hs
  · exact fun s faults hs => hok b rfl s faults hs

end Rules

/-! ### Runs without faults -/

/-- **What a command does when nothing goes wrong**: from a state with `P` it returns,
with `Q`. -/
def Returns (P : σ → Prop) (c : Act τ σ ε α) (Q : α → σ → Prop) : Prop :=
  ∀ s, P s → ∃ a s', c s [] = ⟨.returned a, s', []⟩ ∧ Q a s'

section QuietRules

variable {P : σ → Prop} {Q : α → σ → Prop} {c : Act τ σ ε α}

theorem returns_ret (h : ∀ s, P s → Q a s) : Returns P (ret a : Act τ σ ε α) Q :=
  fun s hs => ⟨a, s, rfl, h s hs⟩

theorem returns_look (h : ∀ s, P s → Q (f s) s) : Returns P (look f : Act τ σ ε α) Q :=
  fun s hs => ⟨f s, s, rfl, h s hs⟩

theorem returns_op {Q : Unit → σ → Prop} (h : ∀ s, P s → Q () (work s)) :
    Returns P (op work tear : Act τ σ ε Unit) Q :=
  fun s hs => ⟨(), work s, rfl, h s hs⟩

theorem returns_bind {Q : β → σ → Prop} (hc : Returns P c M) (hk : ∀ a, Returns (M a) (k a) Q) :
    Returns P (c >>= k) Q := by
  intro s hs
  obtain ⟨a, s', hcs, hM⟩ := hc s hs
  obtain ⟨b, s'', hks, hQ⟩ := hk a s' hM
  refine ⟨b, s'', ?_, hQ⟩
  show andThen c k s [] = _
  rw [andThen, hcs]
  exact hks

theorem returns_catching (hc : Returns P c Q) : Returns P (catching c handler) Q := by
  intro s hs
  obtain ⟨a, s', hcs, hQ⟩ := hc s hs
  refine ⟨a, s', ?_, hQ⟩
  rw [catching, hcs]

end QuietRules

end Act

end SchemaSanitizer.Lib
