/-
SchemaSanitizer/PrivateOrder.lean

The executor with a queue of its own never loses a packet or a wake-up.

Every submitted ordinal that is not delivered is in one place: in the queue, with one
worker, or in its slot.  `Placed` says this for the ordinals that have left the queue.
The other half of the invariant is about waiting: a worker sleeps only while packets may
still come, and `TakeNext` sleeps only while its predicate is false or a worker is about
to notify it.
-/
import SchemaSanitizer.PrivateExecutor
import SchemaSanitizer.ArenaOrder

namespace SchemaSanitizer

open Lib Function

variable {π ρ : Type}

/-! ### Where the ordinals are -/

variable {packet : OrdinalPacket π} {w : Nat} {scheduled : ScheduledPacket π}

/-- The packet a worker has taken and not stored. -/
def WorkerPhase.holds : WorkerPhase π ρ → Option (ScheduledPacket π)
  | .active scheduled => some scheduled
  | .executed scheduled _ => some scheduled
  | _ => none

theorem WorkerPhase.wake_cases (phase : WorkerPhase π ρ) :
    (phase = .sleeping ∧ phase.wake = .polling) ∨ phase.wake = phase := by
  cases phase <;> simp [WorkerPhase.wake]

theorem CallerPhase.wake_ne_waiting (caller : CallerPhase) : caller.wake ≠ .waiting := by
  cases caller <;> nofun

theorem WorkerPhase.holds_wake (phase : WorkerPhase π ρ) : phase.wake.holds = phase.holds := by
  cases phase <;> rfl

/-- The queue holds the ordinals from `first` up to `last`, in order. -/
def QueuedFrom (capacity : Nat) : Nat → Nat → List (ScheduledPacket π) → Prop
  | first, last, [] => first = last
  | first, last, scheduled :: rest =>
    scheduled.packet.ordinal = first ∧ scheduled.completionSlot = first % capacity ∧
      QueuedFrom capacity (first + 1) last rest

theorem QueuedFrom.le {capacity : Nat} : ∀ {tasks : List (ScheduledPacket π)} {first last : Nat},
    QueuedFrom capacity first last tasks → first ≤ last
  | [], _, _, h => Nat.le_of_eq h
  | _ :: _, _, _, h => Nat.le_of_succ_le h.2.2.le

theorem QueuedFrom.push {capacity : Nat} :
    ∀ {tasks : List (ScheduledPacket π)} {first last : Nat},
      QueuedFrom capacity first last tasks → packet.ordinal = last →
      QueuedFrom capacity first (last + 1) (tasks ++ [⟨packet, last % capacity⟩])
  | [], _, _, rfl, hordinal => ⟨hordinal, rfl, rfl⟩
  | _ :: _, _, _, ⟨h₁, h₂, h₃⟩, hordinal => ⟨h₁, h₂, h₃.push hordinal⟩

/-- Where the ordinals from `take` up to `popped` are. -/
structure Placed (capacity popped take : Nat) (workers : Nat → WorkerPhase π ρ)
    (completed : Nat → Option (Nat × ρ)) : Prop where
  taken : take ≤ popped
  held : ∀ w t, (workers w).holds = some t → take ≤ t.packet.ordinal ∧
    t.packet.ordinal < popped ∧ t.completionSlot = t.packet.ordinal % capacity ∧
    completed t.completionSlot = none
  alone : ∀ w w' t t', (workers w).holds = some t → (workers w').holds = some t' →
    t.packet.ordinal = t'.packet.ordinal → w = w'
  stored : ∀ i n r, completed i = some (n, r) → take ≤ n ∧ n < popped ∧ i = n % capacity
  placed : ∀ n, take ≤ n → n < popped →
    (∃ w t, (workers w).holds = some t ∧ t.packet.ordinal = n) ∨
      ∃ r, completed (n % capacity) = some (n, r)

section Placed

variable {capacity popped take : Nat} {workers workers' : Nat → WorkerPhase π ρ}
  {completed : Nat → Option (Nat × ρ)}

section

variable (h : Placed capacity popped take workers completed)

include h

theorem Placed.congr (hsame : ∀ w, (workers' w).holds = (workers w).holds) :
    Placed capacity popped take workers' completed where
  taken := h.taken
  held := fun w t ht => h.held w t (by rw [← hsame, ht])
  alone := fun w w' t t' ht ht' => h.alone w w' t t' (by rw [← hsame, ht]) (by rw [← hsame, ht'])
  stored := h.stored
  placed := fun n hn hn' => by
    rcases h.placed n hn hn' with ⟨w, t, ht, hord⟩ | hstored
    · exact .inl ⟨w, t, by rw [hsame, ht], hord⟩
    · exact .inr hstored

theorem Placed.next_free (hwindow : popped < take + capacity) :
    completed (popped % capacity) = none := by
  rcases hc : completed (popped % capacity) with _ | ⟨n, r⟩
  · rfl
  · obtain ⟨hn, hn', hmod⟩ := h.stored _ _ _ hc
    exact absurd hmod (mod_ne_of_window h.taken hwindow hn (hn'.trans hwindow) hn'.ne')

/-- A popped packet is held by the worker that popped it. -/
theorem Placed.pop (hwindow : popped < take + capacity) (hbefore : (workers w).holds = none)
    (hordinal : scheduled.packet.ordinal = popped)
    (hslot : scheduled.completionSlot = popped % capacity) :
    Placed capacity (popped + 1) take (update workers w (.active scheduled)) completed := by
  have hself : (update workers w (.active scheduled) w).holds = some scheduled := by
    rw [update_self]
    rfl
  have hother : ∀ w' ≠ w, (update workers w (.active scheduled) w').holds =
      (workers w').holds := fun w' hne => by rw [update_of_ne hne]
  have hcases : ∀ w' t, (update workers w (.active scheduled) w').holds = some t →
      (w' = w ∧ t = scheduled) ∨ (workers w').holds = some t ∧ t.packet.ordinal < popped := by
    intro w' t ht
    rcases eq_or_ne w' w with rfl | hne
    · rw [hself] at ht
      exact .inl ⟨rfl, (Option.some.inj ht).symm⟩
    · rw [hother w' hne] at ht
      exact .inr ⟨ht, (h.held w' t ht).2.1⟩
  refine ⟨h.taken.trans (Nat.le_succ _), ?_, ?_, ?_, ?_⟩
  · intro w' t ht
    rcases hcases w' t ht with ⟨-, rfl⟩ | ⟨ht, -⟩
    · rw [hordinal, hslot]
      exact ⟨h.taken, Nat.lt_succ_self _, rfl, h.next_free hwindow⟩
    · obtain ⟨h₁, h₂, h₃⟩ := h.held w' t ht
      exact ⟨h₁, h₂.trans (Nat.lt_succ_self _), h₃⟩
  · intro w₁ w₂ t₁ t₂ ht₁ ht₂ hord
    rcases hcases w₁ t₁ ht₁ with ⟨rfl, rfl⟩ | ⟨ht₁, hlt₁⟩
    · rcases hcases w₂ t₂ ht₂ with ⟨rfl, -⟩ | ⟨-, hlt₂⟩
      · rfl
      · omega
    · rcases hcases w₂ t₂ ht₂ with ⟨rfl, rfl⟩ | ⟨ht₂, -⟩
      · omega
      · exact h.alone w₁ w₂ t₁ t₂ ht₁ ht₂ hord
  · intro i n r hi
    obtain ⟨h₁, h₂, h₃⟩ := h.stored i n r hi
    exact ⟨h₁, h₂.trans (Nat.lt_succ_self _), h₃⟩
  · intro n hn hn'
    rcases eq_or_ne n popped with rfl | hne
    · exact .inl ⟨w, scheduled, hself, hordinal⟩
    · rcases h.placed n hn (by omega) with ⟨w', t, ht, hord⟩ | hstored
      · have hne' : w' ≠ w := by
          rintro rfl
          rw [hbefore] at ht
          cases ht
        exact .inl ⟨w', t, by rw [hother w' hne', ht], hord⟩
      · exact .inr hstored

/-- An outcome is stored in the slot of its ordinal, which is free. -/
theorem Placed.store (hwindow : popped ≤ take + capacity)
    {scheduled : ScheduledPacket π} (hbefore : (workers w).holds = some scheduled)
    {phase : WorkerPhase π ρ} (hafter : phase.holds = none) (r : ρ) :
    Placed capacity popped take (update workers w phase)
      (update completed scheduled.completionSlot
        (some (scheduled.packet.ordinal, r))) := by
  obtain ⟨hfirst, hlast, hslot, hnone⟩ := h.held w scheduled hbefore
  have hcases : ∀ w' t, (update workers w phase w').holds = some t →
      w' ≠ w ∧ (workers w').holds = some t := by
    intro w' t ht
    rcases eq_or_ne w' w with rfl | hne
    · rw [update_self, hafter] at ht
      cases ht
    · rw [update_of_ne hne] at ht
      exact ⟨hne, ht⟩
  have hdiffer : ∀ n, take ≤ n → n < popped → n ≠ scheduled.packet.ordinal →
      n % capacity ≠ scheduled.completionSlot := fun n hn hn' hne => by
    rw [hslot]
    exact mod_ne_of_window hn (hn'.trans_le hwindow) hfirst (hlast.trans_le hwindow) hne
  refine ⟨h.taken, ?_, ?_, ?_, ?_⟩
  · intro w' t ht
    obtain ⟨hne, ht⟩ := hcases w' t ht
    obtain ⟨h₁, h₂, h₃, h₄⟩ := h.held w' t ht
    have hother : t.packet.ordinal ≠ scheduled.packet.ordinal := fun heq =>
      hne (h.alone w' w t scheduled ht hbefore heq)
    refine ⟨h₁, h₂, h₃, ?_⟩
    rw [h₃] at h₄ ⊢
    rwa [update_of_ne (hdiffer _ h₁ h₂ hother)]
  · intro w₁ w₂ t₁ t₂ ht₁ ht₂
    exact h.alone w₁ w₂ t₁ t₂ (hcases w₁ t₁ ht₁).2 (hcases w₂ t₂ ht₂).2
  · intro i n r' hi
    rcases eq_or_ne i scheduled.completionSlot with rfl | hne
    · rw [update_self] at hi
      cases hi
      exact ⟨hfirst, hlast, hslot⟩
    · rw [update_of_ne hne] at hi
      exact h.stored i n r' hi
  · intro n hn hn'
    rcases eq_or_ne n scheduled.packet.ordinal with rfl | hne
    · refine .inr ⟨r, ?_⟩
      rw [← hslot, update_self]
    · rcases h.placed n hn hn' with ⟨w', t, ht, hord⟩ | ⟨r', hr'⟩
      · have hne' : w' ≠ w := by
          rintro rfl
          rw [hbefore] at ht
          cases ht
          exact hne hord.symm
        exact .inl ⟨w', t, by rw [update_of_ne hne', ht], hord⟩
      · exact .inr ⟨r', by rw [update_of_ne (hdiffer n hn hn' hne), hr']⟩

/-- An inline outcome is stored in the next slot. -/
theorem Placed.storeNext (hwindow : popped < take + capacity) (r : ρ) :
    Placed capacity (popped + 1) take workers
      (update completed (popped % capacity) (some (popped, r))) := by
  have hdiffer : ∀ n, take ≤ n → n < popped → n % capacity ≠ popped % capacity :=
    fun n hn hn' => mod_ne_of_window hn (hn'.trans hwindow) h.taken hwindow hn'.ne
  refine ⟨h.taken.trans (Nat.le_succ _), ?_, h.alone, ?_, ?_⟩
  · intro w t ht
    obtain ⟨h₁, h₂, h₃, h₄⟩ := h.held w t ht
    refine ⟨h₁, h₂.trans (Nat.lt_succ_self _), h₃, ?_⟩
    rw [h₃] at h₄ ⊢
    rwa [update_of_ne (hdiffer _ h₁ h₂)]
  · intro i n r' hi
    rcases eq_or_ne i (popped % capacity) with rfl | hne
    · rw [update_self] at hi
      cases hi
      exact ⟨h.taken, Nat.lt_succ_self _, rfl⟩
    · rw [update_of_ne hne] at hi
      obtain ⟨h₁, h₂, h₃⟩ := h.stored i n r' hi
      exact ⟨h₁, h₂.trans (Nat.lt_succ_self _), h₃⟩
  · intro n hn hn'
    rcases eq_or_ne n popped with rfl | hne
    · exact .inr ⟨r, update_self ..⟩
    · have hlt : n < popped := by omega
      rcases h.placed n hn hlt with hheld | ⟨r', hr'⟩
      · exact .inl hheld
      · exact .inr ⟨r', by rw [update_of_ne (hdiffer n hn hlt), hr']⟩

/-- Delivery frees the slot of the first ordinal. -/
theorem Placed.deliver (hwindow : popped ≤ take + capacity) {r : ρ}
    (hready : completed (take % capacity) = some (take, r)) :
    Placed capacity popped (take + 1) workers
      (update completed (take % capacity) none) := by
  obtain ⟨-, hlast, -⟩ := h.stored _ _ _ hready
  have hdiffer : ∀ n, take < n → n < popped → n % capacity ≠ take % capacity :=
    fun n hn hn' => mod_ne_of_window hn.le (hn'.trans_le hwindow) le_rfl
      (hlast.trans_le hwindow) hn.ne'
  refine ⟨hlast, ?_, h.alone, ?_, ?_⟩
  · intro w t ht
    obtain ⟨h₁, h₂, h₃, h₄⟩ := h.held w t ht
    have hne : t.packet.ordinal ≠ take := by
      intro heq
      rw [h₃, heq, hready] at h₄
      cases h₄
    have hlt : take < t.packet.ordinal := Nat.lt_of_le_of_ne h₁ hne.symm
    refine ⟨hlt, h₂, h₃, ?_⟩
    rw [h₃] at h₄ ⊢
    rwa [update_of_ne (hdiffer _ hlt h₂)]
  · intro i n r' hi
    rcases eq_or_ne i (take % capacity) with rfl | hne
    · rw [update_self] at hi
      cases hi
    · rw [update_of_ne hne] at hi
      obtain ⟨h₁, h₂, h₃⟩ := h.stored i n r' hi
      refine ⟨Nat.lt_of_le_of_ne h₁ ?_, h₂, h₃⟩
      rintro rfl
      exact hne h₃
  · intro n hn hn'
    rcases h.placed n (Nat.le_of_succ_le hn) hn' with hheld | ⟨r', hr'⟩
    · exact .inl hheld
    · exact .inr ⟨r', by rw [update_of_ne (hdiffer n hn hn'), hr']⟩

end

end Placed

/-! ### Who sleeps and who has gone -/

/-- A thread has gone only when nothing is to be done any more, and sleeps only while
something may come. -/
structure ThreadsFit (workerCount : Nat) (workers : Nat → WorkerPhase π ρ)
    (tasks : List (ScheduledPacket π)) (accepting : Bool) (caller : CallerPhase) : Prop where
  exited : ∀ w, inlineMode workerCount = false → w < workerCount → workers w = .exited →
    accepting = false ∧ tasks = []
  sleeping : ∀ w, workers w = .sleeping → accepting = true ∨ caller = .finishing
  alarming : ∀ w, workers w ≠ .alarming

/-- `TakeNext` waits only while it has no answer, or somebody is about to notify it. -/
def Watched (answer : Option (Except TakeError (Nat × ρ))) (workers : Nat → WorkerPhase π ρ)
    (caller : CallerPhase) : Prop :=
  caller = .waiting → answer = none ∨ ∃ w, workers w = .notifying

section Threads

variable {workerCount : Nat} {workers : Nat → WorkerPhase π ρ} {tasks : List (ScheduledPacket π)}
  {accepting : Bool} {caller : CallerPhase} {answer : Option (Except TakeError (Nat × ρ))}

section

variable (h : ThreadsFit workerCount workers tasks accepting caller)

include h

/-- A worker may take any phase that the queue and `accepting` allow. -/
theorem ThreadsFit.update (w : Nat) {phase : WorkerPhase π ρ}
    (hexited : phase = .exited → accepting = false ∧ tasks = [])
    (hsleeping : phase = .sleeping → accepting = true) (halarming : phase ≠ .alarming) :
    ThreadsFit workerCount (update workers w phase) tasks accepting caller := by
  have hcases : ∀ w', Function.update workers w phase w' = phase ∨
      Function.update workers w phase w' = workers w' := by
    intro w'
    rcases eq_or_ne w' w with rfl | hne
    · exact .inl (update_self ..)
    · exact .inr (update_of_ne hne ..)
  refine ⟨fun w' hpool hw' hex => ?_, fun w' hsl => ?_, fun w' hal => ?_⟩
  · rcases hcases w' with hc | hc <;> rw [hc] at hex
    · exact hexited hex
    · exact h.exited w' hpool hw' hex
  · rcases hcases w' with hc | hc <;> rw [hc] at hsl
    · exact .inl (hsleeping hsl)
    · exact h.sleeping w' hsl
  · rcases hcases w' with hc | hc <;> rw [hc] at hal
    · exact halarming hal
    · exact h.alarming w' hal

theorem ThreadsFit.wakeAll (caller' : CallerPhase) :
    ThreadsFit workerCount (fun w => (workers w).wake) tasks accepting caller' := by
  have hwake : ∀ {phase : WorkerPhase π ρ}, phase.wake ≠ .sleeping ∧
      (phase.wake = .exited → phase = .exited) ∧ (phase.wake = .alarming → phase = .alarming) := by
    intro phase
    cases phase <;> simp [WorkerPhase.wake]
  refine ⟨fun w hpool hw hex => ?_, fun w hsl => ?_, fun w hal => ?_⟩
  · exact h.exited w hpool hw (hwake.2.1 hex)
  · exact absurd hsl hwake.1
  · exact h.alarming w (hwake.2.2 hal)

theorem ThreadsFit.move (hother : caller ≠ .finishing) (caller' : CallerPhase) :
    ThreadsFit workerCount workers tasks accepting caller' :=
  { h with sleeping := fun w hw => .inl ((h.sleeping w hw).resolve_right hother) }

theorem ThreadsFit.wakeCaller : ThreadsFit workerCount workers tasks accepting caller.wake := by
  refine { h with sleeping := fun w hw => (h.sleeping w hw).imp_right ?_ }
  rintro rfl
  rfl

end

theorem Watched.update (h : Watched answer workers caller) (hbefore : workers w ≠ .notifying)
    (phase : WorkerPhase π ρ) : Watched answer (update workers w phase) caller := by
  intro hwaiting
  rcases h hwaiting with hnone | ⟨w', hw'⟩
  · exact .inl hnone
  · refine .inr ⟨w', ?_⟩
    have hne : w' ≠ w := by
      rintro rfl
      exact hbefore hw'
    rw [update_of_ne hne, hw']

theorem Watched.wake : Watched answer workers caller.wake :=
  fun hwaiting => absurd hwaiting caller.wake_ne_waiting

end Threads

/-! ### The invariant of runs without failures -/

/-- **The invariant**, for runs without cancellation and without a rejected charge. -/
structure PrivateInv (capacity workerCount : Nat) (s : PrivateState π ρ) : Prop where
  calm : s.fatal = false ∧ s.cancelled = false
  flying : s.nextTakeOrdinal + s.inFlight = s.nextSubmitOrdinal
  window : s.nextSubmitOrdinal ≤ s.nextTakeOrdinal + capacity
  ringSubmit : s.ring.nextSubmit = s.nextSubmitOrdinal % capacity
  ringTake : s.ring.nextTake = s.nextTakeOrdinal % capacity
  places : ∃ popped, QueuedFrom capacity popped s.nextSubmitOrdinal s.tasks ∧
    Placed capacity popped s.nextTakeOrdinal s.workers s.completed
  inlineTasks : inlineMode workerCount = true → s.tasks = []
  threads : ThreadsFit workerCount s.workers s.tasks s.accepting s.caller
  cancelling : s.caller ≠ .cancelling
  watched : Watched s.takeNext s.workers s.caller

section Invariant

variable {capacity workerCount : Nat} {produces : Bool → π → ρ → Prop} {s s' : PrivateState π ρ}
  {e : PrivateEvent}

theorem PrivateInv.initial :
    PrivateInv capacity workerCount (PrivateState.initial π ρ workerCount) := by
  have hworkers : ∀ w, (PrivateState.initial π ρ workerCount).workers w = .polling ∨
      (PrivateState.initial π ρ workerCount).workers w = .exited := by
    intro w
    rw [PrivateState.initial]
    exact (ite_eq_or_eq ..)
  have hnone : ∀ w, ((PrivateState.initial π ρ workerCount).workers w).holds = none := by
    intro w
    rcases hworkers w with h | h <;> rw [h] <;> rfl
  refine
    { calm := ⟨rfl, rfl⟩
      flying := rfl
      window := Nat.zero_le _
      ringSubmit := (Nat.zero_mod _).symm
      ringTake := (Nat.zero_mod _).symm
      places := ⟨0, rfl, le_rfl, ?_, ?_, nofun, nofun⟩
      inlineTasks := fun _ => rfl
      threads := ⟨?_, ?_, ?_⟩
      cancelling := nofun
      watched := nofun }
  · intro w t ht
    rw [hnone] at ht
    cases ht
  · intro w w' t t' ht
    rw [hnone] at ht
    cases ht
  · intro w hpool hw hexited
    have hpolling : (PrivateState.initial π ρ workerCount).workers w = .polling :=
      if_pos ⟨hpool, hw⟩
    rw [hpolling] at hexited
    cases hexited
  · intro w hw
    rcases hworkers w with h | h <;> rw [h] at hw <;> cases hw
  · intro w hw
    rcases hworkers w with h | h <;> rw [h] at hw <;> cases hw

section

variable (h : PrivateInv capacity workerCount s)

include h

/-- **A worker changes its phase and nothing else.** -/
theorem PrivateInv.setWorker {before : WorkerPhase π ρ} (hbefore : s.workers w = before)
    (phase : WorkerPhase π ρ) (hholds : phase.holds = before.holds)
    (hexited : phase = .exited → s.accepting = false ∧ s.tasks = [])
    (hsleeping : phase = .sleeping → s.accepting = true) (halarming : phase ≠ .alarming)
    (hnotifying : before = .notifying → s.caller ≠ .waiting) :
    PrivateInv capacity workerCount (s.setWorker w phase) := by
  obtain ⟨popped, hqueue, hplaced⟩ := h.places
  refine { h with
    places := ⟨popped, hqueue, hplaced.congr fun w' => ?_⟩
    threads := h.threads.update w hexited hsleeping halarming
    watched := fun hwaiting => h.watched.update
      (fun hn => hnotifying (hbefore ▸ hn) hwaiting) phase hwaiting }
  rcases eq_or_ne w' w with rfl | hne
  · rw [PrivateState.setWorker_self, hbefore, hholds]
  · rw [PrivateState.setWorker_of_ne s hne]

theorem PrivateInv.wakeCaller :
    PrivateInv capacity workerCount { s with caller := s.caller.wake } :=
  { h with
    threads := h.threads.wakeCaller
    cancelling := fun hc => h.cancelling (by
      have hwake : s.caller.wake = .cancelling := hc
      cases hcaller : s.caller <;> rw [hcaller] at hwake <;> first | rfl | cases hwake)
    watched := Watched.wake }

theorem PrivateInv.move (caller : CallerPhase) {before : CallerPhase}
    (hbefore : s.caller = before) (hother : before ≠ .finishing) (hafter : caller ≠ .cancelling)
    (hwaiting : caller = .waiting → s.takeNext = none) :
    PrivateInv capacity workerCount { s with caller := caller } :=
  { h with
    threads := h.threads.move (by rwa [hbefore]) caller
    cancelling := hafter
    watched := fun hw => .inl (hwaiting hw) }

theorem PrivateInv.takeNext_eq :
    s.takeNext = match s.nextOutcome with
      | some outcome => some (.ok outcome)
      | none => if s.accepting = false ∧ s.inFlight = 0 then some (.error .noCompletedPackets)
          else none := by
  rw [PrivateState.takeNext, h.calm.1, h.calm.2]
  rfl

theorem PrivateInv.of_answer {outcome : Nat × ρ} (hanswer : s.takeNext = some (.ok outcome)) :
    s.completed s.ring.nextTake = some (s.nextTakeOrdinal, outcome.2) := by
  rw [h.takeNext_eq] at hanswer
  rcases hnext : s.nextOutcome with _ | found
  · rw [hnext] at hanswer
    simp only at hanswer
    split at hanswer <;> cases hanswer
  · rw [hnext] at hanswer
    cases hanswer
    obtain ⟨hsome, hordinal⟩ := Option.filter_eq_some_iff.mp hnext
    rw [hsome, ← beq_iff_eq.mp hordinal]

/-- An admitted packet gets the next ordinal of the window and its position in the ring. -/
theorem PrivateInv.enrol (hcap : 0 < capacity) (hadmits : s.Admits capacity packet) :
    s.nextTakeOrdinal + (s.inFlight + 1) = s.nextSubmitOrdinal + 1 ∧
      s.nextSubmitOrdinal + 1 ≤ s.nextTakeOrdinal + capacity ∧
      ringNext capacity s.ring.nextSubmit = (s.nextSubmitOrdinal + 1) % capacity := by
  have hflying := h.flying
  have hroom := hadmits.window
  refine ⟨by omega, by omega, ?_⟩
  rw [h.ringSubmit, ringNext_mod hcap]

/-- A submission keeps the invariant: the packet joins the queue. -/
theorem PrivateInv.submit (hcap : 0 < capacity) (hpool : inlineMode workerCount = false)
    (hadmits : s.Admits capacity packet) :
    PrivateInv capacity workerCount
      { s.enrol capacity with
        tasks := s.tasks ++ [⟨packet, s.ring.nextSubmit⟩]
        caller := .signalling } := by
  obtain ⟨popped, hqueue, hplaced⟩ := h.places
  obtain ⟨hflying, hwindow, hring⟩ := h.enrol hcap hadmits
  refine { h with
    flying := hflying, window := hwindow, ringSubmit := hring, places := ⟨popped, ?_, hplaced⟩,
    inlineTasks := ?_, threads := ?_, cancelling := nofun, watched := nofun }
  · rw [h.ringSubmit]
    exact hqueue.push hadmits.ordinal
  · intro hinline
    rw [hpool] at hinline
    cases hinline
  · have hthreads := h.threads.move (by rw [hadmits.idle]; nofun) .signalling
    refine { hthreads with exited := fun w hp hw hex => ?_ }
    have := (hthreads.exited w hp hw hex).1
    rw [hadmits.open_.2.2] at this
    cases this

/-- A submission without workers keeps the invariant. -/
theorem PrivateInv.submitInline (hcap : 0 < capacity) (result : ρ)
    (hinline : inlineMode workerCount = true) (hadmits : s.Admits capacity packet) :
    PrivateInv capacity workerCount
      ((s.enrol capacity).storeOutcome s.ring.nextSubmit (packet.ordinal, result)) := by
  obtain ⟨popped, hqueue, hplaced⟩ := h.places
  obtain ⟨hflying, hwindow, hring⟩ := h.enrol hcap hadmits
  have hempty := h.inlineTasks hinline
  rw [hempty] at hqueue
  obtain rfl : popped = s.nextSubmitOrdinal := hqueue
  refine { h with
    flying := hflying, window := hwindow, ringSubmit := hring,
    places := ⟨s.nextSubmitOrdinal + 1, ?_, ?_⟩, watched := ?_ }
  · show QueuedFrom capacity (s.nextSubmitOrdinal + 1) (s.nextSubmitOrdinal + 1) s.tasks
    rw [hempty]
    rfl
  · have hstored := hplaced.storeNext (by omega) result
    rw [← h.ringSubmit, ← hadmits.ordinal] at hstored
    rwa [← hadmits.ordinal]
  · intro hwaiting
    have hidle := hadmits.idle
    rw [show s.caller = .waiting from hwaiting] at hidle
    cases hidle

/-- Taking the first task keeps the invariant. -/
theorem PrivateInv.pop {rest : List (ScheduledPacket π)} (hpolling : s.workers w = .polling)
    (htasks : s.tasks = scheduled :: rest) :
    PrivateInv capacity workerCount { s.setWorker w (.active scheduled) with tasks := rest } := by
  obtain ⟨popped, hqueue, hplaced⟩ := h.places
  rw [htasks] at hqueue
  obtain ⟨hordinal, hslot, hrest⟩ := hqueue
  have hwindow := h.window
  have hle := hrest.le
  -- nobody has gone while the queue was not empty
  have hthreads : ThreadsFit workerCount (s.setWorker w (.active scheduled)).workers s.tasks
      s.accepting s.caller := h.threads.update w nofun nofun nofun
  have hexited : ∀ w', inlineMode workerCount = false → w' < workerCount →
      (s.setWorker w (.active scheduled)).workers w' ≠ .exited := fun w' hpool hw' hex => by
    have := (hthreads.exited w' hpool hw' hex).2
    rw [htasks] at this
    cases this
  exact
    { h with
      places := ⟨popped + 1, hrest,
        hplaced.pop (by omega) (by rw [hpolling]; rfl) hordinal hslot⟩
      inlineTasks := fun hinline => by
        have := h.inlineTasks hinline
        rw [htasks] at this
        cases this
      threads := { hthreads with exited := fun w' hp hw' hex => absurd hex (hexited w' hp hw') }
      watched := h.watched.update (by rw [hpolling]; nofun) _ }

theorem PrivateInv.slot_free (hholds : (s.workers w).holds = some scheduled) :
    s.completed scheduled.completionSlot = none := by
  obtain ⟨popped, -, hplaced⟩ := h.places
  exact (hplaced.held w scheduled hholds).2.2.2

theorem PrivateInv.takeNext_eq_none_iff :
    s.takeNext = none ↔ s.nextOutcome = none ∧ ¬ (s.accepting = false ∧ s.inFlight = 0) := by
  rw [h.takeNext_eq]
  rcases s.nextOutcome with _ | outcome
  · simp
  · simp

theorem PrivateInv.storeOutcome {result : ρ} (hexecuted : s.workers w = .executed scheduled result)
    {phase : WorkerPhase π ρ} (hphase : phase = .polling ∨ phase = .notifying)
    (hwatched : Watched (s.storeOutcome scheduled.completionSlot (scheduled.packet.ordinal,
      result)).takeNext (update s.workers w phase) s.caller) :
    PrivateInv capacity workerCount
      ((s.storeOutcome scheduled.completionSlot (scheduled.packet.ordinal, result)).setWorker w
        phase) := by
  obtain ⟨popped, hqueue, hplaced⟩ := h.places
  have hwindow := h.window
  have hle := hqueue.le
  refine { h with
    places := ⟨popped, hqueue, hplaced.store (by omega) (by rw [hexecuted]; rfl) ?_ result⟩
    threads := h.threads.update w ?_ ?_ ?_
    watched := hwatched }
  · rcases hphase with rfl | rfl <;> rfl
  · rcases hphase with rfl | rfl <;> nofun
  · rcases hphase with rfl | rfl <;> nofun
  · rcases hphase with rfl | rfl <;> nofun

/-- Storing an outcome keeps the invariant: whoever waits for it is notified. -/
theorem PrivateInv.store {scheduled : ScheduledPacket π} {result : ρ}
    (hexecuted : s.workers w = .executed scheduled result) :
    PrivateInv capacity workerCount
      ((s.storeOutcome scheduled.completionSlot (scheduled.packet.ordinal, result)).setWorker w
        (if (s.storeOutcome scheduled.completionSlot
            (scheduled.packet.ordinal, result)).nextOutcome.isSome then .notifying
        else .polling)) := by
  split
  · exact h.storeOutcome hexecuted (.inr rfl) fun _ => .inr ⟨w, update_self ..⟩
  · next hnone =>
      have hnone' := Option.not_isSome_iff_eq_none.mp hnone
      have hpolling := h.storeOutcome hexecuted (.inl rfl) (fun hwaiting => ?_)
      · exact hpolling
      · rcases h.watched hwaiting with hanswer | hnotifying
        · refine .inl ?_
          obtain ⟨-, hopen⟩ := h.takeNext_eq_none_iff.mp hanswer
          rw [PrivateState.takeNext, hnone']
          simp [PrivateState.storeOutcome, h.calm, hopen]
        · have hupdate : Watched (some (.error .cancelled)) (update s.workers w .polling)
              s.caller := Watched.update (fun _ => .inr hnotifying) (by rw [hexecuted]; nofun) _
          exact .inr ((hupdate hwaiting).resolve_left nofun)

/-- Delivering the first outcome keeps the invariant. -/
theorem PrivateInv.deliver (hcap : 0 < capacity) (htaking : s.caller = .taking)
    {outcome : Nat × ρ} (hanswer : s.takeNext = some (.ok outcome)) :
    PrivateInv capacity workerCount (s.deliver capacity) := by
  obtain ⟨popped, hqueue, hplaced⟩ := h.places
  have hready := h.of_answer hanswer
  rw [h.ringTake] at hready
  obtain ⟨-, hlast, -⟩ := hplaced.stored _ _ _ hready
  have hflying := h.flying
  have hwindow := h.window
  have hle := hqueue.le
  refine { h with
    flying := ?_, window := ?_, ringTake := ?_
    places := ⟨popped, hqueue, ?_⟩
    threads := h.threads.move (by rw [htaking]; nofun) .idle
    cancelling := nofun
    watched := nofun }
  · show s.nextTakeOrdinal + 1 + (s.inFlight - 1) = s.nextSubmitOrdinal
    omega
  · show s.nextSubmitOrdinal ≤ s.nextTakeOrdinal + 1 + capacity
    omega
  · show ringNext capacity s.ring.nextTake = (s.nextTakeOrdinal + 1) % capacity
    rw [h.ringTake, ringNext_mod hcap]
  · have hdelivered := hplaced.deliver (by omega) hready
    rwa [← h.ringTake] at hdelivered

end

/-- The events of a run without failures. -/
def PrivateEvent.Calm (e : PrivateEvent) : Prop :=
  e ≠ .cancel ∧ e ≠ .rejectCharge ∧ e ≠ .inlineRejectCharge

/-- **The executor keeps its invariant.** -/
theorem PrivateInv.step (hcap : 0 < capacity) (h : PrivateInv capacity workerCount s)
    (hcalm : e.Calm) (hstep : PrivateStep capacity workerCount produces s e s') :
    PrivateInv capacity workerCount s' := by
  cases hstep with
  | submit packet hpool hadmits => exact h.submit hcap hpool hadmits
  | signal w hsignalling hsleeping =>
    have hwoken := h.setWorker hsleeping .polling rfl nofun nofun nofun nofun
    exact hwoken.move .idle hsignalling nofun nofun nofun
  | signalNobody hsignalling => exact h.move .idle hsignalling nofun nofun nofun
  | submitInline packet result hinline hadmits => exact h.submitInline hcap result hinline hadmits
  | inlineOccupied packet hinline hadmits hslot =>
    obtain ⟨popped, hqueue, hplaced⟩ := h.places
    rw [h.inlineTasks hinline] at hqueue
    obtain rfl : popped = s.nextSubmitOrdinal := hqueue
    have hflying := h.flying
    have hroom := hadmits.window
    rw [h.ringSubmit] at hslot
    exact absurd (hplaced.next_free (by omega)) hslot
  | inlineRejectCharge => exact absurd rfl hcalm.2.2
  | take hidle => exact h.move .taking hidle nofun nofun nofun
  | answer htaking hanswer => exact h.deliver hcap htaking hanswer
  | refuse htaking => exact h.move .idle htaking nofun nofun nofun
  | wait htaking hanswer =>
    exact h.move .waiting htaking nofun nofun fun _ => hanswer
  | finish hidle hopen =>
    exact { h with
      threads :=
        ⟨fun w hpool hw hex => ⟨rfl, (h.threads.exited w hpool hw hex).2⟩, fun _ _ => .inr rfl,
          h.threads.alarming⟩
      cancelling := nofun
      watched := nofun }
  | finishNotify hfinishing =>
    obtain ⟨popped, hqueue, hplaced⟩ := h.places
    exact { h with
      places := ⟨popped, hqueue, hplaced.congr fun w => WorkerPhase.holds_wake _⟩
      threads := h.threads.wakeAll .idle
      cancelling := nofun
      watched := nofun }
  | cancel => exact absurd rfl hcalm.1
  | cancelNotify hcancelling => exact absurd hcancelling h.cancelling
  | pop w hpolling hopen htasks => exact h.pop hpolling htasks
  | sleep w hpolling hopen htasks haccepting =>
    exact h.setWorker hpolling .sleeping rfl nofun (fun _ => haccepting) nofun nofun
  | exit w hpolling hover =>
    refine h.setWorker hpolling .exited rfl (fun _ => ?_) nofun nofun nofun
    rcases hover with hover | hover | ⟨htasks, haccepting⟩
    · rw [h.calm.2] at hover
      cases hover
    · rw [h.calm.1] at hover
      cases hover
    · exact ⟨haccepting, htasks⟩
  | execute w stop result hactive =>
    exact h.setWorker hactive (.executed _ result) rfl nofun nofun nofun nofun
  | drop w hexecuted hover =>
    rw [h.calm.1, h.calm.2] at hover
    rcases hover with hover | hover <;> cases hover
  | store w hexecuted => exact h.store hexecuted
  | occupied w hexecuted hopen hslot =>
    exact absurd (h.slot_free (by rw [hexecuted]; rfl)) hslot
  | rejectCharge => exact absurd rfl hcalm.2.1
  | notify w hnotifying =>
    exact h.wakeCaller.setWorker hnotifying .polling rfl nofun nofun nofun
      fun _ => s.caller.wake_ne_waiting
  | alarm w halarming => exact absurd halarming (h.threads.alarming w)
  | spuriousWake w =>
    rcases (s.workers w).wake_cases with ⟨hsleeping, hwake⟩ | hwake
    · rw [hwake]
      exact h.wakeCaller.setWorker hsleeping .polling rfl nofun nofun nofun nofun
    · have hsame : s.setWorker w (s.workers w) = s := by
        rw [PrivateState.setWorker, update_eq_self]
      rw [hwake, hsame]
      exact h.wakeCaller

theorem QueuedFrom.exists_mem {n : Nat} : ∀ {tasks : List (ScheduledPacket π)} {first last : Nat},
    QueuedFrom capacity first last tasks → first ≤ n → n < last →
    ∃ t ∈ tasks, t.packet.ordinal = n
  | [], _, _, rfl, hle, hlt => absurd hlt (by omega)
  | t :: _, _, _, ⟨hordinal, _, h⟩, hle, hlt => by
    rcases hle.eq_or_lt with rfl | hle
    · exact ⟨t, List.mem_cons_self, hordinal⟩
    · obtain ⟨t', ht', hn⟩ := h.exists_mem hle hlt
      exact ⟨t', List.mem_cons_of_mem t ht', hn⟩

/-- The events of the sample. -/
def reorderedEvents : List PrivateEvent :=
  [.sleep, .sleep, .submit, .signal, .submit, .signal, .pop, .pop, .execute, .store, .execute,
    .store, .notify, .take, .answer]

end Invariant

end SchemaSanitizer
