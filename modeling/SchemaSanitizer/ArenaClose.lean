/-
SchemaSanitizer/ArenaClose.lean

The end of submission in shared-arena mode.

`FinishSubmission` closes the slot of the next ordinal only if nothing is in flight.
In a run without cancellation and without a rejected charge that slot is closed if
and only if the last `FinishSubmission` found nothing in flight; otherwise it is
empty again once everything is delivered, and nothing will ever change it.
-/
import SchemaSanitizer.ArenaOrder

namespace SchemaSanitizer

open Lib

variable {π ρ : Type}

/-- Closed slots, and what the coordinator has closed. -/
structure ClosedFits (capacity : Nat) (s : ArenaState π ρ) : Prop where
  shut : s.finished ≠ none → s.accepting = false ∧ s.coordinator.pending = none
  closing : ∀ n, s.coordinator = .closing n → s.finished = some 0 ∧ n = s.nextTakeOrdinal
  closed : ∀ i, (s.slots i).state = .closed →
    s.finished = some 0 ∧ s.coordinator.pending = none
  empty : s.finished = some 0 → s.nextTakeOrdinal = s.accepted.length ∧
    ((s.slots (s.nextTakeOrdinal % capacity)).state = .closed ∨
      s.coordinator = .closing s.nextTakeOrdinal)

section Steps

variable {capacity : Nat} {produces : Bool → π → ρ → Prop} {s s' : ArenaState π ρ} {e : ArenaEvent}

theorem ClosedFits.initial : ClosedFits capacity (ArenaState.initial π ρ) where
  shut := fun h => absurd rfl h
  closing := nofun
  closed := nofun
  empty := nofun

section

variable (h : ClosedFits capacity s)

variable {id : Nat} {task : ArenaTask π ρ}

include h

theorem ClosedFits.finished_of_task (hinv : ArenaInv capacity produces s)
    (htask : s.tasks id = some task) : s.finished ≠ some 0 := by
  intro hfin
  obtain ⟨hfirst, hlast, -⟩ := hinv.consistent.owned _ _ htask
  have := (h.empty hfin).1
  omega

theorem ClosedFits.of_open (hopen : s.finished = none) (hfinished : s'.finished = s.finished)
    (hslots : s'.slots = s.slots) (hcoordinator : ∀ n, s'.coordinator ≠ .closing n) :
    ClosedFits capacity s' := by
  rw [hopen] at hfinished
  refine ⟨fun hfin => absurd hfinished hfin, fun n hn => absurd hn (hcoordinator n), ?_, ?_⟩
  · intro i hi
    rw [hslots] at hi
    have := (h.closed i hi).1
    rw [hopen] at this
    cases this
  · intro hfin
    rw [hfinished] at hfin
    cases hfin

theorem ClosedFits.open_of_accepting (hacc : s.accepting = true) : s.finished = none := by
  by_contra hfin
  have := (h.shut hfin).1
  rw [hacc] at this
  cases this

theorem ClosedFits.open_of_pending (hpending : s.coordinator.pending ≠ none) :
    s.finished = none := by
  by_contra hfin
  exact hpending (h.shut hfin).2

theorem ClosedFits.work (hinv : ArenaInv capacity produces s) (htask : s.tasks id = some task)
    (task' : Option (ArenaTask π ρ)) {i : Nat} {slot : ArenaOutcomeSlot ρ}
    (hslot : slot.state = .closed → (s.slots i).state = .closed) :
    ClosedFits capacity ((s.setTask id task').setSlot i slot) := by
  have hnot := h.finished_of_task hinv htask
  refine ⟨h.shut, h.closing, fun j hj => ?_, fun hfin => absurd hfin hnot⟩
  rcases eq_or_ne j i with rfl | hne
  · rw [ArenaState.setSlot_self] at hj
    exact h.closed j (hslot hj)
  · rw [ArenaState.setSlot_of_ne _ hne] at hj
    exact h.closed j hj

theorem ClosedFits.setTask (id : Nat) (task' : Option (ArenaTask π ρ)) :
    ClosedFits capacity (s.setTask id task') :=
  { h with }

/-- `FinishSubmission` finds nothing in flight if and only if everything is delivered. -/
theorem ClosedFits.finish (hinv : ArenaInv capacity produces s) (hidle : s.coordinator = .idle)
    (hcancelled : s.cancelled = false) :
    ClosedFits capacity
      { s with
        accepting := false
        finished := some s.inFlight
        coordinator := if s.inFlight = 0 then .closing s.nextTakeOrdinal else .idle } := by
  have hpending : s.coordinator.pending = none := by rw [hidle]; rfl
  have hsubmit := hinv.counters.settled hpending
  have hflying := hinv.counters.flying hcancelled
  refine ⟨fun _ => ⟨rfl, by split <;> rfl⟩, ?_, ?_, ?_⟩
  · intro n hn
    rcases eq_or_ne s.inFlight 0 with hzero | hzero
    · rw [if_pos hzero] at hn
      cases hn
      exact ⟨congrArg some hzero, rfl⟩
    · rw [if_neg hzero] at hn
      cases hn
  · intro i hi
    have hdone := (h.empty (h.closed i hi).1).1
    exact ⟨congrArg some (by omega), by split <;> rfl⟩
  · intro hfin
    have hzero : s.inFlight = 0 := Option.some.inj hfin
    have hdone : s.nextTakeOrdinal = s.accepted.length := by omega
    exact ⟨hdone, .inr (if_pos hzero)⟩

/-- Closing the take slot succeeds: with nothing in flight that slot is free. -/
theorem ClosedFits.close (hinv : ArenaInv capacity produces s) (hcalm : Calm s) {n : Nat}
    (hclosing : s.coordinator = .closing n) :
    ClosedFits capacity
      { s.setSlot (n % capacity) (s.slots (n % capacity)).closeEmpty with
        coordinator := .idle } := by
  obtain ⟨hfin, rfl⟩ := h.closing n hclosing
  have hdone := (h.empty hfin).1
  have hfree := hinv.consistent.free (s.nextTakeOrdinal % capacity) fun m hm hm' => by omega
  have hstate : (s.slots (s.nextTakeOrdinal % capacity)).closeEmpty.state = .closed := by
    rw [ArenaOutcomeSlot.closeEmpty]
    split
    · rfl
    · next hnot => exact (hfree.empty_or_closed (hcalm.slots _)).resolve_left hnot
  have hself := ArenaState.setSlot_self s (s.nextTakeOrdinal % capacity)
    (s.slots (s.nextTakeOrdinal % capacity)).closeEmpty
  exact ⟨fun hf => ⟨(h.shut hf).1, rfl⟩, fun _ hc => (by cases hc), fun i _ => ⟨hfin, rfl⟩,
    fun _ => ⟨hdone, .inl ((congrArg ArenaOutcomeSlot.state hself).trans hstate)⟩⟩

/-- **A step without cancellation and without a rejected charge closes what it should.** -/
theorem ClosedFits.step (hinv : ArenaInv capacity produces s) (hcalm : Calm s)
    (hcancel : e ≠ .cancel) (hcharge : e ≠ .rejectCharge)
    (hstep : ArenaStep capacity produces s e s') : ClosedFits capacity s' := by
  have hcalm' := hcalm.step hinv hcancel hcharge hstep
  cases hstep with
  | submit packet hidle hordinal hopen =>
    exact h.of_open (h.open_of_accepting hopen.2.2) rfl rfl nofun
  | accept hreserved | reject hreserved =>
    exact h.of_open (h.open_of_pending (by rw [hreserved]; nofun)) rfl rfl nofun
  | observe hidle hready =>
    refine ⟨fun hf => ⟨(h.shut hf).1, rfl⟩, nofun, fun i hi => ⟨(h.closed i hi).1, rfl⟩,
      fun hf => ⟨(h.empty hf).1, .inl ?_⟩⟩
    exact (h.empty hf).2.resolve_right (by rw [hidle]; nofun)
  | deliver hobserved hfree hready =>
    obtain ⟨hlast, -⟩ := hinv.take_ready hready
    have hnot : s.finished ≠ some 0 := fun hf => by
      have := (h.empty hf).1
      omega
    refine ⟨fun hf => ⟨(h.shut hf).1, rfl⟩, nofun, fun i hi => ?_, fun hf => absurd hf hnot⟩
    rcases eq_or_ne i s.ring.nextTake with rfl | hne
    · exact absurd hi (by
        show ((s.setSlot _ _).slots _).state ≠ _
        rw [ArenaState.setSlot_self]
        nofun)
    · exact absurd (h.closed i (by rwa [← ArenaState.setSlot_of_ne s hne])).1 hnot
  | invalid | takeFlag | takeSweep | cancelSweep => exact hcalm'.coordinator.elim
  | cancel => exact absurd rfl hcancel
  | finish hidle hopen => exact h.finish hinv hidle hopen.2
  | close hclosing => exact h.close hinv hcalm hclosing
  | sweepSlot hsweep | sweepEnd hsweep => exact absurd hcalm.sweep (by rw [hsweep]; nofun)
  | execute | requestStop => exact { h with }
  | claim id htask => exact h.work hinv htask _ nofun
  | occupied id htask hphase hused =>
    exact absurd (.occupied id htask hphase hused) hinv.not_occupied
  | refused id | charge id => exact h.setTask id _
  | rejectCharge => exact absurd rfl hcharge
  | write id htask => exact h.work hinv htask _ fun hs => hs
  | @store id task published htask hphase =>
    have hready : published = .ready := by
      have := hcalm.tasks _ _ htask
      rwa [hphase] at this
    exact h.work hinv htask _ (by rw [hready]; nofun)
  | failFlag _ htask hphase | failSweep _ htask hphase =>
    exact absurd (hcalm.tasks _ _ htask) (by rw [hphase]; exact id)

end

end Steps

/-! ### When no worker can go on -/

/-- No worker can take a step. -/
def Quiescent (capacity : Nat) (produces : Bool → π → ρ → Prop) (s : ArenaState π ρ) : Prop :=
  ∀ e s', e.ofWorker = true → ¬ ArenaStep capacity produces s e s'

section Quiet

variable {capacity : Nat} {produces : Bool → π → ρ → Prop} {s : ArenaState π ρ}

theorem Quiescent.of_tasks (htasks : ∀ id, s.tasks id = none) (hsweep : s.sweep = none) :
    Quiescent capacity produces s := by
  intro e s' hworker hstep
  have htask : ∀ {id : Nat} {task : ArenaTask π ρ}, s.tasks id ≠ some task :=
    fun ht => by rw [htasks] at ht; cases ht
  have hfree : ∀ {w : Sweep}, s.sweep ≠ some w := fun hw => by rw [hsweep] at hw; cases hw
  cases hstep with
  | sweepSlot hw | sweepEnd hw => exact hfree hw
  | execute _ _ ht | claim _ ht | refused _ ht | occupied _ ht | charge _ ht | rejectCharge _ ht
  | write _ ht | store _ ht | failFlag _ ht | failSweep _ ht => exact htask ht
  | _ => cases hworker

/-- A quiescent arena whose workers always answer holds no task. -/
theorem Quiescent.tasks (h : Quiescent capacity produces s) (hcalm : Calm s)
    (hproduces : ∀ stop p, ∃ r, produces stop p r) (id : Nat) : s.tasks id = none := by
  by_contra hsome
  obtain ⟨task, htask⟩ := Option.ne_none_iff_exists'.mp hsome
  have hphase := hcalm.tasks id task htask
  rcases hp : task.phase with _ | r | r | r | published | _ | _ | _
  · obtain ⟨r, hr⟩ := hproduces s.stopRequested task.packet.payload
    exact h _ _ rfl (.execute id r htask hp hr)
  · -- `Publish` ends the task or goes on, whatever the state of the slot
    rcases hs : (s.slots task.completionSlot).state with _ | _ | _ | _ | _ | _
    · exact h _ _ rfl (.claim id htask hp hs)
    · exact h _ _ rfl (.occupied id htask hp (.inl hs))
    · exact h _ _ rfl (.occupied id htask hp (.inr hs))
    · exact h _ _ rfl (.refused id htask hp (.inl hs))
    · exact h _ _ rfl (.refused id htask hp (.inr (.inl hs)))
    · exact h _ _ rfl (.refused id htask hp (.inr (.inr hs)))
  · exact h _ _ rfl (.charge id htask hp)
  · exact h _ _ rfl (.write id htask hp hcalm.sweep)
  · exact h _ _ rfl (.store id htask hp)
  · rw [hp] at hphase
    exact hphase
  · rw [hp] at hphase
    exact hphase
  · rw [hp] at hphase
    exact hphase

/-- With packets left and no task running, `TakeNext` answers with the next packet. -/
theorem takeNext_of_remaining (hinv : ArenaInv capacity produces s) (hcalm : Calm s)
    (hclosed : ClosedFits capacity s) (hcancelled : s.cancelled = false)
    (htasks : ∀ id, s.tasks id = none) (hlast : s.nextTakeOrdinal < s.accepted.length) :
    ∃ r, s.takeNext = some (.ok (s.nextTakeOrdinal, r)) := by
  have hfits := hinv.consistent.fits s.nextTakeOrdinal le_rfl hlast
  rw [htasks, ← hinv.counters.ringTake] at hfits
  rcases hfits with hover | ⟨r, -, hslot⟩
  · have hslot := hcalm.slots s.ring.nextTake
    rcases hover.state with hs | hs | hs
    · exact absurd hs hslot.1
    · exact absurd hs hslot.2
    · have := (hclosed.empty (hclosed.closed _ hs).1).1
      omega
  · refine ⟨r, ?_⟩
    rw [ArenaState.takeNext, hslot]
    simp [hcalm.fatal, hcancelled]

/-- After the last packet the answer rests on the slot `FinishSubmission` found. -/
theorem takeNext_of_delivered (hinv : ArenaInv capacity produces s) (hcalm : Calm s)
    (hclosed : ClosedFits capacity s) (hidle : s.coordinator = .idle) {found : Nat}
    (hfinished : s.finished = some found) (hlast : s.nextTakeOrdinal = s.accepted.length) :
    s.takeNext = if found = 0 then some (.error .noCompletedPackets) else none := by
  have hring := hinv.counters.ringTake
  split
  · next hzero =>
      rw [hzero] at hfinished
      have hstate := (hclosed.empty hfinished).2.resolve_right (by rw [hidle]; nofun)
      rw [ArenaState.takeNext, hring, hstate]
  · next hfound =>
      have hfree := hinv.consistent.free s.ring.nextTake fun m hm hm' => by omega
      rcases hfree.empty_or_closed (hcalm.slots _) with hs | hs
      · rw [ArenaState.takeNext, hs]
      · have := (hclosed.closed _ hs).1
        rw [hfinished] at this
        exact absurd (Option.some.inj this) hfound

end Quiet

end SchemaSanitizer
