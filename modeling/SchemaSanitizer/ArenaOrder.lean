/-
SchemaSanitizer/ArenaOrder.lean

Ordered delivery in shared-arena mode.

The accepted ordinals that are not delivered form a window that is no longer than
the ring, so that each of them has a slot of its own.  `SlotFits` says what that slot
looks like in each phase of the ordinal's task; it is kept by every step of every
thread, and what the executor delivers is read off it.  A second invariant, for runs
without cancellation and without a rejected charge, shows that nothing fails.
-/
import SchemaSanitizer.ArenaExecutor

namespace SchemaSanitizer

open Lib List Function

variable {π ρ : Type}

/-! ### The ring -/

variable {capacity n m : Nat}

theorem ringNext_mod (hcap : 0 < capacity) (n : Nat) :
    ringNext capacity (n % capacity) = (n + 1) % capacity := by
  have hlt := Nat.mod_lt n hcap
  have hn : n + 1 = capacity * (n / capacity) + (n % capacity + 1) := by
    rw [← Nat.add_assoc, Nat.div_add_mod]
  rw [ringNext, hn, Nat.mul_add_mod]
  split
  · next he => rw [he, Nat.mod_self]
  · exact (Nat.mod_eq_of_lt (by omega)).symm

theorem ringBack_mod (hcap : 0 < capacity) (n : Nat) :
    (if (n + 1) % capacity = 0 then capacity - 1 else (n + 1) % capacity - 1) = n % capacity := by
  have hlt := Nat.mod_lt n hcap
  rw [← ringNext_mod hcap, ringNext]
  by_cases hlast : n % capacity + 1 = capacity
  · rw [if_pos hlast, if_pos rfl]
    omega
  · rw [if_neg hlast, if_neg (Nat.succ_ne_zero _), Nat.add_sub_cancel]

theorem mod_ne_of_window {first : Nat} (hm : first ≤ m) (hm' : m < first + capacity)
    (hn : first ≤ n) (hn' : n < first + capacity) (hne : m ≠ n) : m % capacity ≠ n % capacity := by
  intro h
  rcases Nat.lt_or_gt_of_ne hne with hlt | hlt
  · have hdvd := (Nat.modEq_iff_dvd' hlt.le).mp h
    exact absurd (Nat.le_of_dvd (by omega) hdvd) (by omega)
  · have hdvd := (Nat.modEq_iff_dvd' hlt.le).mp h.symm
    exact absurd (Nat.le_of_dvd (by omega) hdvd) (by omega)

/-! ### Slots -/

variable {slot : ArenaOutcomeSlot ρ} {terminal : ArenaSlotState} {ran : ρ → Prop}

/-- The slot waits for a worker, or is closed to all of them. -/
structure ArenaOutcomeSlot.Free (slot : ArenaOutcomeSlot ρ) : Prop where
  outcome : slot.outcome = none
  publishing : slot.state ≠ .publishing
  ready : slot.state ≠ .ready

/-- A state in which a slot takes no outcome. -/
def ArenaSlotState.Terminal (state : ArenaSlotState) : Prop :=
  state = .cancelled ∨ state = .fatal ∨ state = .closed

/-- No outcome will come into the slot. -/
structure ArenaOutcomeSlot.Over (slot : ArenaOutcomeSlot ρ) : Prop where
  outcome : slot.outcome = none
  state : slot.state.Terminal

/-- The slot of ordinal `n`, by the phase of its task; `ran` are the results of the
ordinal's executions. -/
def SlotFits (n : Nat) (ran : ρ → Prop) (slot : ArenaOutcomeSlot ρ) :
    Option (TaskPhase ρ) → Prop
  | none => slot.Over ∨ ∃ r, ran r ∧ slot = ⟨.ready, some (n, r)⟩
  | some .queued => slot.Free ∧ ∀ r, ¬ ran r
  | some (.executed r) => slot.Free ∧ ran r
  | some (.claimed r) => slot = ⟨.publishing, none⟩ ∧ ran r
  | some (.charged r) => slot = ⟨.publishing, none⟩ ∧ ran r
  | some (.written published) =>
    (published = .ready ∧ ∃ r, ran r ∧ slot = ⟨.publishing, some (n, r)⟩) ∨
    (published.Terminal ∧ slot = ⟨.publishing, none⟩)
  | some .failing => slot.Over
  | some .flagged => slot.Over
  | some .sweeping => slot.Over

theorem ArenaOutcomeSlot.Over.not_ready (h : slot.Over) : slot.state ≠ .ready := by
  intro hready
  have hs := h.state
  rw [hready] at hs
  rcases hs with h | h | h <;> cases h

theorem ArenaOutcomeSlot.Free.terminalize (h : slot.Free) (ht : terminal.Terminal) :
    (slot.terminalize terminal).Free := by
  obtain ⟨state, outcome⟩ := slot
  obtain ⟨rfl, hp, hr⟩ := h
  have hterminal : ArenaOutcomeSlot.Free (⟨terminal, none⟩ : ArenaOutcomeSlot ρ) := by
    rcases ht with rfl | rfl | rfl <;> exact ⟨rfl, nofun, nofun⟩
  cases state with
  | publishing => exact absurd rfl hp
  | ready => exact absurd rfl hr
  | empty | closed => exact hterminal
  | cancelled | fatal => exact ⟨rfl, hp, hr⟩

theorem ArenaOutcomeSlot.Over.terminalize (h : slot.Over) (ht : terminal.Terminal) :
    (slot.terminalize terminal).Over := by
  obtain ⟨state, outcome⟩ := slot
  obtain ⟨rfl, rfl | rfl | rfl⟩ := h
  · exact ⟨rfl, .inl rfl⟩
  · exact ⟨rfl, .inr (.inl rfl)⟩
  · exact ⟨rfl, ht⟩

/-- `Terminalize` keeps what fits: it leaves alone what a worker has claimed. -/
theorem SlotFits.terminalize (ht : terminal.Terminal) :
    ∀ {phase : Option (TaskPhase ρ)} {slot : ArenaOutcomeSlot ρ},
      SlotFits n ran slot phase → SlotFits n ran (slot.terminalize terminal) phase
  | none, _, .inl h => .inl (h.terminalize ht)
  | none, _, .inr ⟨_, _, rfl⟩ => .inl ⟨rfl, ht⟩
  | some .queued, _, h | some (.executed _), _, h => ⟨h.1.terminalize ht, h.2⟩
  | some (.claimed _), _, ⟨rfl, hr⟩ | some (.charged _), _, ⟨rfl, hr⟩ => ⟨rfl, hr⟩
  | some (.written _), _, .inl ⟨hp, r, hr, rfl⟩ => .inl ⟨hp, r, hr, rfl⟩
  | some (.written _), _, .inr ⟨hp, rfl⟩ => .inr ⟨hp, rfl⟩
  | some .failing, _, h | some .flagged, _, h | some .sweeping, _, h =>
    ArenaOutcomeSlot.Over.terminalize h ht

theorem SlotFits.of_ready :
    ∀ {phase : Option (TaskPhase ρ)} {slot : ArenaOutcomeSlot ρ}, slot.state = .ready →
      SlotFits n ran slot phase → phase = none ∧ ∃ r, ran r ∧ slot = ⟨.ready, some (n, r)⟩
  | none, _, hready, .inl h => absurd hready h.not_ready
  | none, _, _, .inr h => ⟨rfl, h⟩
  | some .queued, _, hready, h | some (.executed _), _, hready, h => absurd hready h.1.ready
  | some (.claimed _), _, hready, ⟨rfl, _⟩ | some (.charged _), _, hready, ⟨rfl, _⟩
  | some (.written _), _, hready, .inl ⟨_, _, _, rfl⟩ | some (.written _), _, hready,
    .inr ⟨_, rfl⟩ =>
    nomatch hready
  | some .failing, _, hready, h | some .flagged, _, hready, h | some .sweeping, _, hready, h =>
    absurd hready (ArenaOutcomeSlot.Over.not_ready h)

/-! ### The window -/

variable {task : ArenaTask π ρ} {packet : OrdinalPacket π}

/-- Ordinal `n` was executed with result `r`. -/
def Ran (executions : List (OrdinalPacket π × ρ)) (n : Nat) (r : ρ) : Prop :=
  ∃ e ∈ executions, e.1.ordinal = n ∧ e.2 = r

/-- The tasks and slots of the window from `first` to the last accepted ordinal. -/
structure WindowFits (capacity : Nat) (slots : Nat → ArenaOutcomeSlot ρ)
    (tasks : Nat → Option (ArenaTask π ρ)) (accepted : List (OrdinalPacket π))
    (executions : List (OrdinalPacket π × ρ)) (first : Nat) : Prop where
  owned : ∀ n task, tasks n = some task → first ≤ n ∧ n < accepted.length ∧
    task.packet.ordinal = n ∧ task.completionSlot = n % capacity ∧ task.packet ∈ accepted
  fits : ∀ n, first ≤ n → n < accepted.length →
    SlotFits n (Ran executions n) (slots (n % capacity)) ((tasks n).map ArenaTask.phase)
  free : ∀ i, (∀ n, first ≤ n → n < accepted.length → n % capacity ≠ i) → (slots i).Free

section WindowFits

variable {capacity first : Nat} {slots : Nat → ArenaOutcomeSlot ρ}
  {tasks : Nat → Option (ArenaTask π ρ)} {accepted : List (OrdinalPacket π)}
  {executions : List (OrdinalPacket π × ρ)}

section

variable (h : WindowFits capacity slots tasks accepted executions first)

include h

theorem WindowFits.fits_task (ht : tasks n = some task) :
    SlotFits n (Ran executions n) (slots task.completionSlot) (some task.phase) := by
  obtain ⟨hfirst, hlast, -, hslot, -⟩ := h.owned n task ht
  have hfits := h.fits n hfirst hlast
  rwa [ht, ← hslot] at hfits

/-- **A step of a worker**: its own task, slot and executions change, and nothing else. -/
theorem WindowFits.step_task (hwindow : accepted.length ≤ first + capacity)
    (ht : tasks n = some task) (task' : Option (ArenaTask π ρ)) (slot : ArenaOutcomeSlot ρ)
    (executions' : List (OrdinalPacket π × ρ))
    (hkeep : ∀ t ∈ task', t.packet = task.packet ∧ t.completionSlot = task.completionSlot)
    (hlog : ∀ m, m ≠ n → Ran executions' m = Ran executions m)
    (hfits : SlotFits n (Ran executions' n) slot (task'.map ArenaTask.phase)) :
    WindowFits capacity (update slots task.completionSlot slot)
      (update tasks n task') accepted executions' first := by
  obtain ⟨hfirst, hlast, hordinal, hslot, hmem⟩ := h.owned n task ht
  refine ⟨fun m t hm => ?_, fun m hm hm' => ?_, fun i hi => ?_⟩
  · rcases eq_or_ne m n with rfl | hne
    · rw [update_self] at hm
      obtain ⟨hp, hs⟩ := hkeep t hm
      rw [hp, hs]
      exact ⟨hfirst, hlast, hordinal, hslot, hmem⟩
    · rw [update_of_ne hne] at hm
      exact h.owned m t hm
  · rcases eq_or_ne m n with rfl | hne
    · rw [update_self, hslot, update_self]
      exact hfits
    · have hmod := mod_ne_of_window hm (hm'.trans_le hwindow) hfirst (hlast.trans_le hwindow) hne
      rw [update_of_ne hne, hslot, update_of_ne hmod, hlog m hne]
      exact h.fits m hm hm'
  · have hne : i ≠ task.completionSlot := by
      rw [hslot]
      exact (hi n hfirst hlast).symm
    rw [update_of_ne hne]
    exact h.free i hi

theorem WindowFits.terminalize (ht : terminal.Terminal) (i : Nat) :
    WindowFits capacity (update slots i ((slots i).terminalize terminal)) tasks accepted
      executions first := by
  refine ⟨h.owned, fun n hn hn' => ?_, fun j hj => ?_⟩
  · have hfits := h.fits n hn hn'
    rcases eq_or_ne (n % capacity) i with rfl | hne
    · rw [update_self]
      exact hfits.terminalize ht
    · rwa [update_of_ne hne]
  · rcases eq_or_ne j i with rfl | hne
    · rw [update_self]
      exact (h.free j hj).terminalize ht
    · rw [update_of_ne hne]
      exact h.free j hj

/-- An accepted packet is queued in the slot of its ordinal. -/
theorem WindowFits.accept (hroom : accepted.length < first + capacity)
    (hfirst : first ≤ accepted.length) (hordinal : packet.ordinal = accepted.length)
    (hnew : ∀ r, ¬ Ran executions accepted.length r) :
    WindowFits capacity slots
      (update tasks accepted.length
        (some ⟨packet, accepted.length % capacity, .queued⟩))
      (accepted ++ [packet]) executions first := by
  have hlen : (accepted ++ [packet]).length = accepted.length + 1 := length_append
  refine ⟨fun n task hn => ?_, fun n hn hn' => ?_, fun i hi => ?_⟩
  · rw [hlen]
    rcases eq_or_ne n accepted.length with rfl | hne
    · rw [update_self] at hn
      cases hn
      exact ⟨hfirst, Nat.lt_succ_self _, hordinal, rfl, mem_append_right _ (by simp)⟩
    · rw [update_of_ne hne] at hn
      obtain ⟨h₁, h₂, h₃, h₄, h₅⟩ := h.owned n task hn
      exact ⟨h₁, h₂.trans (Nat.lt_succ_self _), h₃, h₄, mem_append_left _ h₅⟩
  · rcases eq_or_ne n accepted.length with rfl | hne
    · rw [update_self]
      refine ⟨h.free _ fun m hm hm' => ?_, hnew⟩
      exact mod_ne_of_window hm (hm'.trans hroom) hfirst hroom hm'.ne
    · rw [update_of_ne hne]
      exact h.fits n hn (by omega)
  · exact h.free i fun n hn hn' => hi n hn (by omega)

/-- Delivery empties the slot of the first ordinal and moves the window by one. -/
theorem WindowFits.deliver (hwindow : accepted.length ≤ first + capacity)
    (hlast : first < accepted.length) (hdone : tasks first = none) :
    WindowFits capacity (update slots (first % capacity) ⟨.empty, none⟩) tasks accepted
      executions (first + 1) := by
  have hother : ∀ n, first + 1 ≤ n → n < accepted.length → n % capacity ≠ first % capacity :=
    fun n hn hn' => mod_ne_of_window (Nat.le_of_succ_le hn) (hn'.trans_le hwindow) le_rfl
      (hlast.trans_le hwindow) (by omega)
  refine ⟨fun n task hn => ?_, fun n hn hn' => ?_, fun i hi => ?_⟩
  · obtain ⟨h₁, h₂⟩ := h.owned n task hn
    refine ⟨Nat.lt_of_le_of_ne h₁ ?_, h₂⟩
    rintro rfl
    rw [hdone] at hn
    cases hn
  · rw [update_of_ne (hother n hn hn')]
    exact h.fits n (Nat.le_of_succ_le hn) hn'
  · rcases eq_or_ne i (first % capacity) with rfl | hne
    · rw [update_self]
      exact ⟨rfl, nofun, nofun⟩
    · rw [update_of_ne hne]
      refine h.free i fun n hn hn' => ?_
      rcases eq_or_ne n first with rfl | hne'
      · exact hne.symm
      · exact hi n (by omega) hn'

end

end WindowFits

/-! ### The coordinator -/

/-- The packet that the arena has not answered, with its slot. -/
def CoordinatorPhase.pending : CoordinatorPhase π → Option (OrdinalPacket π × Nat)
  | .reserved packet slot => some (packet, slot)
  | _ => none

/-- The counters of the executor. -/
structure Counters (capacity submit take inFlight : Nat) (cancelled : Bool)
    (ring : CompletionRingCursor) (coordinator : CoordinatorPhase π)
    (accepted : List (OrdinalPacket π)) : Prop where
  numbered : accepted.map OrdinalPacket.ordinal = List.range accepted.length
  settled : coordinator.pending = none → submit = accepted.length
  reserved : ∀ packet slot, coordinator.pending = some (packet, slot) →
    submit = accepted.length + 1 ∧ packet.ordinal = accepted.length ∧
      slot = accepted.length % capacity
  taken : take ≤ accepted.length
  window : submit ≤ take + capacity
  flying : cancelled = false → take + inFlight = submit
  ringSubmit : ring.nextSubmit = submit % capacity
  ringTake : ring.nextTake = take % capacity

section Counters

variable {capacity submit take inFlight : Nat} {cancelled : Bool} {ring : CompletionRingCursor}
  {coordinator coordinator' : CoordinatorPhase π} {accepted : List (OrdinalPacket π)}

section

variable (h : Counters capacity submit take inFlight cancelled ring coordinator accepted)

include h

theorem Counters.accepted_le : accepted.length ≤ take + capacity := by
  rcases hp : coordinator.pending with - | ⟨packet, slot⟩
  · have := h.settled hp
    have := h.window
    omega
  · obtain ⟨hs, -⟩ := h.reserved packet slot hp
    have := h.window
    omega

theorem Counters.move (hp : coordinator.pending = none) (hp' : coordinator'.pending = none) :
    Counters capacity submit take inFlight cancelled ring coordinator' accepted :=
  { h with
    settled := fun _ => h.settled hp
    reserved := fun _ _ hr => by rw [hp'] at hr; cases hr }

theorem Counters.cancel (inFlight' : Nat) :
    Counters capacity submit take inFlight' true ring coordinator accepted :=
  { h with flying := nofun }

/-- Reserving a slot counts one more ordinal in flight. -/
theorem Counters.reserve (hcap : 0 < capacity) (hp : coordinator.pending = none)
    (hopen : cancelled = false) (hwindow : inFlight < capacity)
    (hordinal : packet.ordinal = submit) :
    Counters capacity (submit + 1) take (inFlight + 1) cancelled (ring.reserveSubmit capacity)
      (.reserved packet ring.nextSubmit) accepted := by
  have hsubmit := h.settled hp
  have hflying := h.flying hopen
  refine { h with settled := nofun, reserved := ?_, window := ?_, flying := ?_, ringSubmit := ?_ }
  · rintro _ _ ⟨⟩
    refine ⟨by rw [hsubmit], by rw [hordinal, hsubmit], ?_⟩
    rw [h.ringSubmit, hsubmit]
  · omega
  · intro _
    omega
  · show ringNext capacity ring.nextSubmit = (submit + 1) % capacity
    rw [h.ringSubmit, ringNext_mod hcap]

end

theorem Counters.accept {slot : Nat}
    (h : Counters capacity submit take inFlight cancelled ring (.reserved packet slot) accepted) :
    Counters capacity submit take inFlight cancelled ring .idle (accepted ++ [packet]) := by
  obtain ⟨hsubmit, hordinal, -⟩ := h.reserved packet slot rfl
  have hlen : (accepted ++ [packet]).length = accepted.length + 1 := length_append
  refine { h with numbered := ?_, settled := ?_, reserved := nofun, taken := ?_ }
  · rw [hlen, range_succ, map_append, h.numbered]
    show _ ++ [packet.ordinal] = _
    rw [hordinal]
  · intro _
    rw [hlen, hsubmit]
  · rw [hlen]
    exact h.taken.trans (Nat.le_succ _)

/-- A rolled back reservation gives its ordinal and its slot back. -/
theorem Counters.rollback (hcap : 0 < capacity) {slot : Nat}
    (h : Counters capacity submit take inFlight cancelled ring (.reserved packet slot) accepted) :
    Counters capacity (submit - 1) take (inFlight - 1) cancelled (ring.rollbackSubmit capacity)
      .idle accepted := by
  obtain ⟨hsubmit, -, -⟩ := h.reserved packet slot rfl
  have htaken := h.taken
  have hwindow := h.window
  refine { h with settled := ?_, reserved := nofun, window := ?_, flying := ?_, ringSubmit := ?_ }
  · intro _
    omega
  · omega
  · intro hopen
    have := h.flying hopen
    omega
  · show (if ring.nextSubmit = 0 then capacity - 1 else ring.nextSubmit - 1) = _
    rw [h.ringSubmit, hsubmit, ringBack_mod hcap, Nat.add_sub_cancel]

/-- Delivery moves the take ordinal and the take position together. -/
theorem Counters.deliver (hcap : 0 < capacity)
    (h : Counters capacity submit take inFlight cancelled ring coordinator accepted)
    (hp : coordinator.pending = none) (hp' : coordinator'.pending = none)
    (hlast : take < accepted.length) :
    Counters capacity submit (take + 1) (inFlight - 1) cancelled (ring.advanceTake capacity)
      coordinator' accepted := by
  have hsubmit := h.settled hp
  have hwindow := h.window
  refine { h.move hp hp' with taken := hlast, window := ?_, flying := ?_, ringTake := ?_ }
  · omega
  · intro hopen
    have := h.flying hopen
    omega
  · show ringNext capacity ring.nextTake = (take + 1) % capacity
    rw [h.ringTake, ringNext_mod hcap]

end Counters

/-! ### The logs -/

variable {executions : List (OrdinalPacket π × ρ)}

/-- Every execution is one of an accepted packet, with a result that the worker
produces, and no ordinal is executed twice. -/
structure Logged (produces : Bool → π → ρ → Prop) (accepted : List (OrdinalPacket π))
    (executions : List (OrdinalPacket π × ρ)) : Prop where
  produced : ∀ e ∈ executions, e.1 ∈ accepted ∧ ∃ stop, produces stop e.1.payload e.2
  once : executions.Pairwise fun e e' => e.1.ordinal ≠ e'.1.ordinal

theorem ran_append_of_ne {e : OrdinalPacket π × ρ} (hne : m ≠ e.1.ordinal) :
    Ran (executions ++ [e]) m = Ran executions m := by
  funext r
  refine propext ⟨?_, ?_⟩
  · rintro ⟨e', he', hm, hr⟩
    rcases mem_append.mp he' with he' | he'
    · exact ⟨e', he', hm, hr⟩
    · obtain rfl := mem_singleton.mp he'
      exact absurd hm.symm hne
  · rintro ⟨e', he', hm, hr⟩
    exact ⟨e', mem_append_left _ he', hm, hr⟩

theorem Logged.execute {produces : Bool → π → ρ → Prop} {accepted : List (OrdinalPacket π)}
    {executions : List (OrdinalPacket π × ρ)} (h : Logged produces accepted executions)
    {packet : OrdinalPacket π} {r : ρ} {stop : Bool} (hmem : packet ∈ accepted)
    (hresult : produces stop packet.payload r) (hnew : ∀ r, ¬ Ran executions packet.ordinal r) :
    Logged produces accepted (executions ++ [(packet, r)]) := by
  refine ⟨fun e he => ?_, ?_⟩
  · rcases mem_append.mp he with he | he
    · exact h.produced e he
    · obtain rfl := mem_singleton.mp he
      exact ⟨hmem, stop, hresult⟩
  · refine pairwise_append.mpr ⟨h.once, pairwise_singleton _ _, fun e he e' he' => ?_⟩
    obtain rfl := mem_singleton.mp he'
    exact fun heq => hnew e.2 ⟨e, he, heq, rfl⟩

theorem Logged.accept {produces : Bool → π → ρ → Prop} {accepted : List (OrdinalPacket π)}
    (h : Logged produces accepted executions) (packet : OrdinalPacket π) :
    Logged produces (accepted ++ [packet]) executions :=
  ⟨fun e he => ⟨mem_append_left _ (h.produced e he).1, (h.produced e he).2⟩, h.once⟩

/-- What was delivered. -/
structure DeliveredUpTo (take : Nat) (delivered : List (Nat × ρ))
    (executions : List (OrdinalPacket π × ρ)) : Prop where
  ordered : delivered.map Prod.fst = List.range take
  ran : ∀ e ∈ delivered, Ran executions e.1 e.2

theorem DeliveredUpTo.deliver {take : Nat} {delivered : List (Nat × ρ)}
    {executions : List (OrdinalPacket π × ρ)} (h : DeliveredUpTo take delivered executions) {r : ρ}
    (hran : Ran executions take r) :
    DeliveredUpTo (take + 1) (delivered ++ [(take, r)]) executions := by
  refine ⟨?_, fun e he => ?_⟩
  · rw [map_append, h.ordered, range_succ]
    rfl
  · rcases mem_append.mp he with he | he
    · exact h.ran e he
    · obtain rfl := mem_singleton.mp he
      exact hran

theorem DeliveredUpTo.execute {take : Nat} {delivered : List (Nat × ρ)}
    {executions : List (OrdinalPacket π × ρ)} (h : DeliveredUpTo take delivered executions)
    (e : OrdinalPacket π × ρ) : DeliveredUpTo take delivered (executions ++ [e]) := by
  refine ⟨h.ordered, fun d hd => ?_⟩
  obtain ⟨e', he', hr⟩ := h.ran d hd
  exact ⟨e', mem_append_left _ he', hr⟩

/-! ### The invariant -/

/-- Who runs `Terminalize` does nothing else. -/
def SweepOwner.Waits (tasks : Nat → Option (ArenaTask π ρ)) (cancelled : Bool)
    (coordinator : CoordinatorPhase π) : SweepOwner → Prop
  | .worker id => ∃ task, tasks id = some task ∧ task.phase = .sweeping
  | .takeNext => coordinator = .sweeping
  | .cancel => coordinator = .sweeping ∧ cancelled = true

/-- `Terminalize` on its way. -/
def SweepFits (tasks : Nat → Option (ArenaTask π ρ)) (cancelled : Bool)
    (coordinator : CoordinatorPhase π) (sweep : Option Sweep) : Prop :=
  ∀ w ∈ sweep, w.terminal.Terminal ∧ w.owner.Waits tasks cancelled coordinator

section Sweeps

variable {tasks : Nat → Option (ArenaTask π ρ)} {cancelled : Bool}
  {coordinator : CoordinatorPhase π} {sweep : Option Sweep}

theorem SweepFits.update (h : SweepFits tasks cancelled coordinator sweep)
    (task' : Option (ArenaTask π ρ))
    (hother : ∀ task, tasks n = some task → task.phase ≠ .sweeping) :
    SweepFits (update tasks n task') cancelled coordinator sweep := by
  rintro ⟨terminal, next, owner⟩ hw
  obtain ⟨hterminal, howner⟩ := h _ hw
  refine ⟨hterminal, ?_⟩
  cases owner with
  | worker id =>
    obtain ⟨task, htask, hphase⟩ := howner
    have hne : id ≠ n := by
      rintro rfl
      exact hother task htask hphase
    exact ⟨task, by rw [update_of_ne hne, htask], hphase⟩
  | takeNext => exact howner
  | cancel => exact howner

theorem SweepFits.move (h : SweepFits tasks cancelled coordinator sweep)
    (hother : coordinator ≠ .sweeping) (cancelled' : Bool) (coordinator' : CoordinatorPhase π) :
    SweepFits tasks cancelled' coordinator' sweep := by
  rintro ⟨terminal, next, owner⟩ hw
  obtain ⟨hterminal, howner⟩ := h _ hw
  refine ⟨hterminal, ?_⟩
  cases owner with
  | worker id => exact howner
  | takeNext => exact absurd howner hother
  | cancel => exact absurd howner.1 hother

end Sweeps

variable {id : Nat}

/-- **The invariant of the executor.** -/
structure ArenaInv (capacity : Nat) (produces : Bool → π → ρ → Prop) (s : ArenaState π ρ) :
    Prop where
  counters : Counters capacity s.nextSubmitOrdinal s.nextTakeOrdinal s.inFlight s.cancelled s.ring
    s.coordinator s.accepted
  consistent : WindowFits capacity s.slots s.tasks s.accepted s.executions s.nextTakeOrdinal
  logged : Logged produces s.accepted s.executions
  swept : SweepFits s.tasks s.cancelled s.coordinator s.sweep
  cancelling : s.coordinator = .cancelling → s.cancelled = true
  delivered : DeliveredUpTo s.nextTakeOrdinal s.delivered s.executions

section Invariant

variable {capacity : Nat} {produces : Bool → π → ρ → Prop} {s s' : ArenaState π ρ} {e : ArenaEvent}

theorem ArenaInv.initial : ArenaInv capacity produces (ArenaState.initial π ρ) where
  counters :=
    { numbered := rfl
      settled := fun _ => rfl
      reserved := nofun
      taken := le_rfl
      window := Nat.zero_le _
      flying := fun _ => rfl
      ringSubmit := (Nat.zero_mod _).symm
      ringTake := (Nat.zero_mod _).symm }
  consistent := ⟨nofun, nofun, fun _ _ => ⟨rfl, nofun, nofun⟩⟩
  logged := ⟨nofun, List.Pairwise.nil⟩
  swept := nofun
  cancelling := nofun
  delivered := ⟨rfl, nofun⟩

section

variable (h : ArenaInv capacity produces s)

include h

theorem ArenaInv.not_ran (r : ρ) : ¬ Ran s.executions s.accepted.length r := by
  rintro ⟨e, he, hn, -⟩
  have hmem : e.1.ordinal ∈ s.accepted.map OrdinalPacket.ordinal :=
    mem_map_of_mem (h.logged.produced e he).1
  rw [h.counters.numbered, mem_range] at hmem
  omega

/-- **A worker goes on**: what it leaves of its task has to fit what it leaves in its slot. -/
theorem ArenaInv.setTask_setSlot (htask : s.tasks id = some task) (hother : task.phase ≠ .sweeping)
    (task' : Option (ArenaTask π ρ)) (slot : ArenaOutcomeSlot ρ)
    (hkeep : ∀ t ∈ task', t.packet = task.packet ∧ t.completionSlot = task.completionSlot)
    (hfits : SlotFits id (Ran s.executions id) slot (task'.map ArenaTask.phase)) :
    ArenaInv capacity produces ((s.setTask id task').setSlot task.completionSlot slot) where
  counters := h.counters
  consistent := h.consistent.step_task h.counters.accepted_le htask task' slot _ hkeep
    (fun _ _ => rfl) hfits
  logged := h.logged
  swept := h.swept.update task' fun t ht => by
    rw [htask] at ht
    cases ht
    exact hother
  cancelling := h.cancelling
  delivered := h.delivered

theorem ArenaInv.setTask (htask : s.tasks id = some task) (hother : task.phase ≠ .sweeping)
    (task' : Option (ArenaTask π ρ))
    (hkeep : ∀ t ∈ task', t.packet = task.packet ∧ t.completionSlot = task.completionSlot)
    (hfits : SlotFits id (Ran s.executions id) (s.slots task.completionSlot)
      (task'.map ArenaTask.phase)) :
    ArenaInv capacity produces (s.setTask id task') := by
  have hset := h.setTask_setSlot htask hother task' _ hkeep hfits
  rwa [show (s.setTask id task').setSlot task.completionSlot (s.slots task.completionSlot) =
    s.setTask id task' by rw [ArenaState.setSlot]; simp [ArenaState.setTask]] at hset

theorem ArenaInv.setPhase (htask : s.tasks id = some task) (hother : task.phase ≠ .sweeping)
    (after : TaskPhase ρ)
    (hfits : SlotFits id (Ran s.executions id) (s.slots task.completionSlot) (some after)) :
    ArenaInv capacity produces (s.setPhase id task after) :=
  h.setTask htask hother _ (by rintro _ ⟨⟩; exact ⟨rfl, rfl⟩) hfits

theorem ArenaInv.setPhase_setSlot (htask : s.tasks id = some task) (hother : task.phase ≠ .sweeping)
    (after : TaskPhase ρ) (slot : ArenaOutcomeSlot ρ)
    (hfits : SlotFits id (Ran s.executions id) slot (some after)) :
    ArenaInv capacity produces ((s.setPhase id task after).setSlot task.completionSlot slot) :=
  h.setTask_setSlot htask hother _ slot (by rintro _ ⟨⟩; exact ⟨rfl, rfl⟩) hfits

theorem ArenaInv.fits_phase (htask : s.tasks id = some task) {phase : TaskPhase ρ}
    (hphase : task.phase = phase) :
    SlotFits id (Ran s.executions id) (s.slots task.completionSlot) (some phase) :=
  hphase ▸ h.consistent.fits_task htask

theorem ArenaInv.take_ready (hready : (s.slots s.ring.nextTake).state = .ready) :
    s.nextTakeOrdinal < s.accepted.length ∧ s.tasks s.nextTakeOrdinal = none ∧
      ∃ r, Ran s.executions s.nextTakeOrdinal r ∧
        s.slots s.ring.nextTake = ⟨.ready, some (s.nextTakeOrdinal, r)⟩ := by
  have hring := h.counters.ringTake
  rcases Nat.lt_or_ge s.nextTakeOrdinal s.accepted.length with hlast | hlast
  · have hfits := h.consistent.fits s.nextTakeOrdinal le_rfl hlast
    rw [← hring] at hfits
    obtain ⟨hdone, hout⟩ := hfits.of_ready hready
    exact ⟨hlast, Option.map_eq_none_iff.mp hdone, hout⟩
  · have hfree := h.consistent.free s.ring.nextTake fun n hn hn' => by omega
    exact absurd hready hfree.ready

theorem ArenaInv.move {before : CoordinatorPhase π} (after : CoordinatorPhase π)
    (hbefore : s.coordinator = before) (hp : before.pending = none) (hp' : after.pending = none)
    (hother : before ≠ .sweeping) (hcancelling : after = .cancelling → s.cancelled = true) :
    ArenaInv capacity produces { s with coordinator := after } :=
  { h with
    counters := h.counters.move (by rw [hbefore, hp]) hp'
    swept := h.swept.move (by rwa [hbefore]) _ _
    cancelling := hcancelling }

end

theorem ArenaState.published_fits {r : ρ} (hran : ran r) :
    SlotFits n ran ⟨.publishing, (s.published n r).2⟩ (some (.written (s.published n r).1)) := by
  rw [ArenaState.published]
  split_ifs
  · exact .inr ⟨.inl rfl, rfl⟩
  · exact .inr ⟨.inr (.inl rfl), rfl⟩
  · exact .inl ⟨rfl, r, hran, rfl⟩

section

variable (h : ArenaInv capacity produces s)

include h

/-- Accepting a packet keeps the invariant: its ordinal is new to the window. -/
theorem ArenaInv.accept {slot : Nat} (hreserved : s.coordinator = .reserved packet slot) :
    ArenaInv capacity produces (s.accept packet slot) := by
  have hcounters := h.counters
  rw [hreserved] at hcounters
  obtain ⟨hsubmit, hordinal, rfl⟩ := hcounters.reserved packet slot rfl
  have hroom := hcounters.window
  have hswept := h.swept.move (by rw [hreserved]; nofun) s.cancelled .idle
  exact
    { counters := hcounters.accept
      consistent := h.consistent.accept (by omega) hcounters.taken hordinal h.not_ran
      logged := h.logged.accept packet
      swept := hswept.update _ fun task htask =>
        absurd (h.consistent.owned _ task htask).2.1 (Nat.lt_irrefl _)
      cancelling := nofun
      delivered := h.delivered }

/-- Delivering the first packet keeps the invariant. -/
theorem ArenaInv.deliver (hcap : 0 < capacity) {result : ρ}
    (hobserved : s.coordinator = .observed) (hready : (s.slots s.ring.nextTake).state = .ready)
    (hvalid : (s.slots s.ring.nextTake).outcome = some (s.nextTakeOrdinal, result)) :
    ArenaInv capacity produces (s.deliver capacity result) := by
  obtain ⟨hlast, hdone, r, hran, hslot⟩ := h.take_ready hready
  obtain rfl : r = result := by
    rw [hslot] at hvalid
    simpa using hvalid
  have hconsistent := h.consistent.deliver h.counters.accepted_le hlast hdone
  rw [← h.counters.ringTake] at hconsistent
  exact
    { h with
      counters := h.counters.deliver hcap (by rw [hobserved]; rfl) rfl hlast
      consistent := hconsistent
      swept := h.swept.move (by rw [hobserved]; nofun) _ _
      cancelling := nofun
      delivered := h.delivered.deliver hran }

theorem ArenaInv.close (i : Nat) :
    ArenaInv capacity produces (s.setSlot i (s.slots i).closeEmpty) := by
  rw [ArenaOutcomeSlot.closeEmpty]
  split
  · next hempty =>
      have hclose : { s.slots i with state := .closed } = (s.slots i).terminalize .closed := by
        rw [ArenaOutcomeSlot.terminalize, hempty]
      rw [hclose]
      exact { h with consistent := h.consistent.terminalize (.inr (.inr rfl)) i }
  · rw [ArenaState.setSlot, update_eq_self]
    exact h

/-- The end of a sweep keeps the invariant: no task is left in its hands. -/
theorem ArenaInv.endSweep {w : Sweep} (hw : s.sweep = some w) :
    ArenaInv capacity produces (s.endSweep w.owner) := by
  obtain ⟨terminal, next, owner⟩ := w
  obtain ⟨-, howner⟩ := h.swept _ hw
  cases owner with
  | worker id =>
    obtain ⟨task, htask, hphase⟩ := howner
    have hfits := h.consistent.fits_task htask
    rw [hphase] at hfits
    have hstep := h.consistent.step_task h.counters.accepted_le htask none _ _ nofun
      (fun _ _ => rfl) (.inl hfits)
    rw [update_eq_self] at hstep
    exact { h with consistent := hstep, swept := nofun }
  | takeNext =>
    exact
      { h with
        counters := h.counters.move (by rw [show s.coordinator = _ from howner]; rfl) rfl
        swept := nofun
        cancelling := nofun }
  | cancel =>
    obtain ⟨hsweeping, hcancelled⟩ := howner
    have hcounters : Counters capacity s.nextSubmitOrdinal s.nextTakeOrdinal 0 true s.ring .idle
        s.accepted := (h.counters.move (by rw [hsweeping]; rfl) rfl).cancel 0
    rw [← hcancelled] at hcounters
    exact { h with counters := hcounters, swept := nofun, cancelling := nofun }

/-- **The executor keeps its invariant.** -/
theorem ArenaInv.step (hcap : 0 < capacity) (hstep : ArenaStep capacity produces s e s') :
    ArenaInv capacity produces s' := by
  cases hstep with
  | submit packet hidle hordinal hopen hwindow =>
    exact { h with
      counters := h.counters.reserve hcap (by rw [hidle]; rfl) hopen.2.1 hwindow hordinal
      swept := h.swept.move (by rw [hidle]; nofun) _ _
      cancelling := nofun }
  | accept hreserved => exact h.accept hreserved
  | reject hreserved =>
    have hcounters := h.counters
    rw [hreserved] at hcounters
    exact { h with
      counters := hcounters.rollback hcap
      swept := h.swept.move (by rw [hreserved]; nofun) _ _
      cancelling := nofun }
  | observe hidle => exact h.move .observed hidle rfl rfl nofun nofun
  | deliver hobserved hfree hready hvalid => exact h.deliver hcap hobserved hready hvalid
  | invalid hobserved => exact h.move .failing hobserved rfl rfl nofun nofun
  | takeFlag hfailing => exact { h.move .flagged hfailing rfl rfl nofun nofun with }
  | takeSweep hflagged =>
    refine { h.move .sweeping hflagged rfl rfl nofun nofun with swept := ?_ }
    rintro _ ⟨⟩
    exact ⟨.inr (.inl rfl), rfl⟩
  | cancel hidle =>
    exact { h with
      counters := (h.counters.move (by rw [hidle]; rfl) rfl).cancel _
      swept := h.swept.move (by rw [hidle]; nofun) _ _
      cancelling := fun _ => rfl }
  | cancelSweep hcancelling =>
    refine { h.move .sweeping hcancelling rfl rfl nofun nofun with swept := ?_ }
    rintro _ ⟨⟩
    exact ⟨.inl rfl, rfl, h.cancelling hcancelling⟩
  | finish hidle =>
    exact { h.move (if s.inFlight = 0 then .closing s.nextTakeOrdinal else .idle) hidle rfl
      (by split <;> rfl) nofun (by split <;> nofun) with }
  | close hclosing =>
    exact (h.close _).move .idle hclosing rfl rfl nofun nofun
  | sweepSlot hsweep hnext =>
    obtain ⟨hterminal, howner⟩ := h.swept _ hsweep
    refine { h with consistent := h.consistent.terminalize hterminal _, swept := ?_ }
    rintro _ ⟨⟩
    exact ⟨hterminal, howner⟩
  | sweepEnd hsweep hnext => exact h.endSweep hsweep
  | @execute id task result htask hphase hresult =>
    obtain ⟨-, -, hordinal, -, hmem⟩ := h.consistent.owned _ _ htask
    have hfits := h.consistent.fits_task htask
    rw [hphase] at hfits
    obtain ⟨hfree, hnew⟩ := hfits
    have hran : Ran (s.executions ++ [(task.packet, result)]) id result :=
      ⟨_, mem_append_right _ (mem_singleton.mpr rfl), hordinal, rfl⟩
    have hother := h.swept.update (some { task with phase := .executed result }) fun t ht => by
      rw [htask] at ht
      cases ht
      rw [hphase]
      nofun
    have hstep := h.consistent.step_task h.counters.accepted_le htask
      (some { task with phase := .executed result }) _ _ (by rintro _ ⟨⟩; exact ⟨rfl, rfl⟩)
      (fun m hne => ran_append_of_ne (by rwa [hordinal])) ⟨hfree, hran⟩
    rw [update_eq_self] at hstep
    exact
      { h with
        consistent := hstep
        logged := h.logged.execute hmem hresult (by rwa [hordinal])
        swept := hother
        delivered := h.delivered.execute _ }
  | claim id htask hphase hempty =>
    obtain ⟨hfree, hran⟩ := h.fits_phase htask hphase
    exact h.setPhase_setSlot htask (by rw [hphase]; nofun) _ _
      ⟨congrArg (ArenaOutcomeSlot.mk .publishing) hfree.outcome, hran⟩
  | refused id htask hphase hterminal =>
    obtain ⟨hfree, -⟩ := h.fits_phase htask hphase
    exact h.setTask htask (by rw [hphase]; nofun) none nofun (.inl ⟨hfree.outcome, hterminal⟩)
  | occupied id htask hphase hused =>
    obtain ⟨hfree, -⟩ := h.fits_phase htask hphase
    exact absurd hused (not_or.mpr ⟨hfree.publishing, hfree.ready⟩)
  | charge id htask hphase =>
    have hfits := h.fits_phase htask hphase
    exact h.setPhase htask (by rw [hphase]; nofun) _ hfits
  | rejectCharge id htask hphase =>
    obtain ⟨hslot, -⟩ := h.fits_phase htask hphase
    refine h.setPhase_setSlot htask (by rw [hphase]; nofun) _ _ ⟨?_, .inr (.inl rfl)⟩
    rw [hslot]
  | write id htask hphase hfree =>
    obtain ⟨hslot, hran⟩ := h.fits_phase htask hphase
    obtain ⟨-, -, hordinal, -⟩ := h.consistent.owned _ _ htask
    refine h.setPhase_setSlot htask (by rw [hphase]; nofun) _ _ ?_
    rw [hslot, hordinal]
    exact ArenaState.published_fits hran
  | store id htask hphase =>
    have hfits := h.fits_phase htask hphase
    refine h.setTask_setSlot htask (by rw [hphase]; nofun) none _ nofun ?_
    rcases hfits with ⟨rfl, r, hran, hslot⟩ | ⟨hterminal, hslot⟩
    · exact .inr ⟨r, hran, by rw [hslot]⟩
    · exact .inl ⟨by rw [hslot], hterminal⟩
  | failFlag id htask hphase =>
    have hover := h.fits_phase htask hphase
    exact { h.setPhase htask (by rw [hphase]; nofun) .flagged hover with }
  | failSweep id htask hphase hfree =>
    have hover := h.fits_phase htask hphase
    refine { h.setPhase htask (by rw [hphase]; nofun) .sweeping hover with swept := ?_ }
    rintro _ ⟨⟩
    exact ⟨.inr (.inl rfl), _, update_self _ _ _, rfl⟩
  | requestStop => exact { h with }

theorem ArenaInv.not_occupied : ¬ ArenaStep capacity produces s .occupied s' := by
  rintro ⟨⟩
  next htask hphase hused =>
    obtain ⟨hfree, -⟩ := h.fits_phase htask hphase
    exact absurd hused (not_or.mpr ⟨hfree.publishing, hfree.ready⟩)

end

end Invariant

/-! ### Runs without cancellation and rejected charges -/

/-- A worker that has not failed. -/
def TaskPhase.Calm : TaskPhase ρ → Prop
  | .written published => published = .ready
  | .failing => False
  | .flagged => False
  | .sweeping => False
  | _ => True

/-- The coordinator has not failed and does not cancel. -/
def CoordinatorPhase.Calm : CoordinatorPhase π → Prop
  | .failing => False
  | .flagged => False
  | .cancelling => False
  | .sweeping => False
  | _ => True

/-- A slot that nobody has cancelled or failed. -/
def ArenaSlotState.Calm (state : ArenaSlotState) : Prop := state ≠ .cancelled ∧ state ≠ .fatal

theorem ArenaOutcomeSlot.Free.empty_or_closed (hfree : slot.Free) (hcalm : slot.state.Calm) :
    slot.state = .empty ∨ slot.state = .closed := by
  rcases hs : slot.state with _ | _ | _ | _ | _ | _
  · exact .inl rfl
  · exact absurd hs hfree.publishing
  · exact absurd hs hfree.ready
  · exact absurd hs hcalm.1
  · exact absurd hs hcalm.2
  · exact .inr rfl

/-- Nothing has failed. -/
structure Calm (s : ArenaState π ρ) : Prop where
  fatal : s.fatal = false
  fatalFlag : s.fatalFlag = false
  cancelledFlag : s.cancelledFlag = false
  sweep : s.sweep = none
  coordinator : s.coordinator.Calm
  tasks : ∀ id, ∀ task ∈ s.tasks id, task.phase.Calm
  slots : ∀ i, (s.slots i).state.Calm
  observed : s.coordinator = .observed → (s.slots s.ring.nextTake).state = .ready

section Calm

variable {capacity i : Nat} {produces : Bool → π → ρ → Prop} {s s' : ArenaState π ρ}
  {e : ArenaEvent} {task' : Option (ArenaTask π ρ)}

theorem Calm.initial : Calm (ArenaState.initial π ρ) where
  fatal := rfl
  fatalFlag := rfl
  cancelledFlag := rfl
  sweep := rfl
  coordinator := trivial
  tasks := nofun
  slots := fun _ => ⟨nofun, nofun⟩
  observed := nofun

theorem Calm.setTask (h : Calm s) (id : Nat) (htask : ∀ task ∈ task', task.phase.Calm) :
    Calm (s.setTask id task') := by
  refine { h with tasks := fun id' task ht => ?_ }
  rcases eq_or_ne id' id with rfl | hne
  · rw [ArenaState.setTask_self] at ht
    exact htask task ht
  · rw [ArenaState.setTask_of_ne s hne] at ht
    exact h.tasks id' task ht

theorem Calm.setSlot_state (h : Calm s) (hcalm : slot.state.Calm) (j : Nat) :
    ((s.setSlot i slot).slots j).state.Calm := by
  rcases eq_or_ne j i with rfl | hne
  · rw [ArenaState.setSlot_self]
    exact hcalm
  · rw [ArenaState.setSlot_of_ne s hne]
    exact h.slots j

theorem Calm.setSlot (h : Calm s) (hcalm : slot.state.Calm) (hbefore : (s.slots i).state ≠ .ready) :
    Calm (s.setSlot i slot) := by
  refine { h with slots := h.setSlot_state hcalm, observed := fun hobserved => ?_ }
  have hready := h.observed hobserved
  have hne : s.ring.nextTake ≠ i := by
    rintro rfl
    exact hbefore hready
  rw [← hready]
  exact congrArg _ (ArenaState.setSlot_of_ne s hne slot)

theorem Calm.publish (h : Calm s) (id : Nat) (htask : ∀ task ∈ task', task.phase.Calm)
    (hcalm : slot.state.Calm) (hbefore : (s.slots i).state ≠ .ready) :
    Calm ((s.setTask id task').setSlot i slot) :=
  (h.setTask id htask).setSlot hcalm hbefore

/-- **A step without cancellation and without a rejected charge fails nothing.** -/
theorem Calm.step (hinv : ArenaInv capacity produces s) (h : Calm s) (hcancel : e ≠ .cancel)
    (hcharge : e ≠ .rejectCharge) (hstep : ArenaStep capacity produces s e s') : Calm s' := by
  cases hstep with
  | submit | reject => exact { h with coordinator := trivial, observed := nofun }
  | accept =>
    exact { h.setTask s.accepted.length (by rintro _ ⟨⟩; trivial) with
      coordinator := trivial, observed := nofun }
  | observe hidle hready => exact { h with coordinator := trivial, observed := fun _ => hready }
  | deliver =>
    exact { h with
      coordinator := trivial, slots := h.setSlot_state ⟨nofun, nofun⟩, observed := nofun }
  | invalid hobserved hfree hinvalid =>
    obtain ⟨-, -, r, -, hslot⟩ := hinv.take_ready (h.observed hobserved)
    exact absurd ⟨h.observed hobserved, r, by rw [hslot]⟩ hinvalid
  | takeFlag hc | takeSweep hc | cancelSweep hc => exact absurd h.coordinator (by rw [hc]; exact id)
  | cancel => exact absurd rfl hcancel
  | finish =>
    exact { h with coordinator := by split <;> trivial, observed := by split <;> nofun }
  | close =>
    exact { h with
      coordinator := trivial
      slots := h.setSlot_state (by
        rw [ArenaOutcomeSlot.closeEmpty]
        split
        exacts [⟨nofun, nofun⟩, h.slots _])
      observed := nofun }
  | sweepSlot hsweep | sweepEnd hsweep => exact absurd h.sweep (by rw [hsweep]; nofun)
  | execute => exact { h.setTask _ (by rintro _ ⟨⟩; trivial) with }
  | claim id htask hphase hempty =>
    exact h.publish _ (by rintro _ ⟨⟩; trivial) ⟨nofun, nofun⟩ (by rw [hempty]; nofun)
  | refused => exact h.setTask _ nofun
  | occupied id htask hphase hused =>
    exact absurd (.occupied id htask hphase hused) hinv.not_occupied
  | charge => exact h.setTask _ (by rintro _ ⟨⟩; trivial)
  | rejectCharge => exact absurd rfl hcharge
  | write id htask hphase hfree =>
    obtain ⟨hslot, -⟩ := hinv.fits_phase htask hphase
    refine h.publish _ ?_ (h.slots _) (by rw [hslot]; nofun)
    rintro _ ⟨⟩
    rw [ArenaState.published, h.cancelledFlag, h.fatalFlag]
    rfl
  | @store id task published htask hphase =>
    have hcalm : published = .ready := by
      have := h.tasks _ _ htask
      rwa [hphase] at this
    have hfits := hinv.fits_phase htask hphase
    refine h.publish _ nofun ?_ ?_
    · rw [hcalm]
      exact ⟨nofun, nofun⟩
    · rcases hfits with ⟨-, r, -, hslot⟩ | ⟨-, hslot⟩ <;> rw [hslot] <;> nofun
  | failFlag _ htask hphase | failSweep _ htask hphase =>
    exact absurd (h.tasks _ _ htask) (by rw [hphase]; exact id)
  | requestStop => exact { h with }

end Calm

/-! ### Ordered delivery -/

/-- **Ordered delivery**, for every interleaving: the outcomes are those of the
ordinals 0, 1, 2, …, each the result of the one execution of the packet accepted under
its ordinal; no worker finds its slot in use; and without cancellation and without a
rejected charge nothing fails. -/
theorem arena_ordered_delivery {reorderCapacity : Nat} {produces : Bool → π → ρ → Prop}
    {events : List ArenaEvent} {s : ArenaState π ρ}
    (hrun : Runs (ArenaStep (dispatchWindow reorderCapacity) produces) (ArenaState.initial π ρ)
      events s) :
    s.accepted.map OrdinalPacket.ordinal = List.range s.accepted.length ∧
    s.delivered.map Prod.fst = List.range s.delivered.length ∧
    (∀ n r, (n, r) ∈ s.delivered → ∃ packet ∈ s.accepted, packet.ordinal = n ∧
      (packet, r) ∈ s.executions ∧ (∃ stop, produces stop packet.payload r) ∧
      ∀ e ∈ s.executions, e.1.ordinal = n → e = (packet, r)) ∧
    ArenaEvent.occupied ∉ events ∧
    (ArenaEvent.cancel ∉ events → ArenaEvent.rejectCharge ∉ events →
      s.fatal = false ∧ s.fatalFlag = false ∧ ∀ i, (s.slots i).state ≠ .fatal) := by
  have hcap : 0 < dispatchWindow reorderCapacity := Nat.lt_of_lt_of_le Nat.one_pos (le_max_left ..)
  have hstep : ∀ s e s', ArenaInv (dispatchWindow reorderCapacity) produces s →
      ArenaStep (dispatchWindow reorderCapacity) produces s e s' →
      ArenaInv (dispatchWindow reorderCapacity) produces s' := fun _ _ _ h hs => h.step hcap hs
  have hinv := hrun.invariant ArenaInv.initial hstep
  have hlength : s.delivered.length = s.nextTakeOrdinal := by
    simpa using congrArg length hinv.delivered.ordered
  refine ⟨hinv.counters.numbered, by rw [hlength, hinv.delivered.ordered], ?_,
    hrun.not_mem ArenaInv.initial hstep fun _ _ h => h.not_occupied, ?_⟩
  · intro n r hmem
    obtain ⟨⟨packet, result⟩, he, hn, hr⟩ := hinv.delivered.ran _ hmem
    obtain rfl : result = r := hr
    obtain ⟨haccepted, hproduced⟩ := hinv.logged.produced _ he
    refine ⟨packet, haccepted, hn, he, hproduced, fun e' he' hn' => ?_⟩
    have hnodup : (s.executions.map fun e => e.1.ordinal).Nodup :=
      pairwise_map.mpr hinv.logged.once
    exact inj_on_of_nodup_map hnodup he' he (hn'.trans hn.symm)
  · intro hcancel hcharge
    have hcalm : ArenaInv (dispatchWindow reorderCapacity) produces s ∧ Calm s := by
      refine hrun.invariant_of
        (I := fun s => ArenaInv (dispatchWindow reorderCapacity) produces s ∧ Calm s)
        (E := fun e => e ≠ .cancel ∧ e ≠ .rejectCharge)
        ⟨ArenaInv.initial, Calm.initial⟩ ?_ fun e he => ⟨?_, ?_⟩
      · exact fun _ _ _ h he hs => ⟨h.1.step hcap hs, h.2.step h.1 he.1 he.2 hs⟩
      · rintro rfl
        exact hcancel he
      · rintro rfl
        exact hcharge he
    exact ⟨hcalm.2.fatal, hcalm.2.fatalFlag, fun i => (hcalm.2.slots i).2⟩

/-- The worker of the sample adds one. -/
def addsOne (_stop : Bool) (payload result : Nat) : Prop := result = payload + 1

/-- Two packets through a ring of one slot, which the second one uses again. -/
theorem arena_ordered_delivery_reuse :
    ∃ (events : List ArenaEvent) (s : ArenaState Nat Nat),
      Runs (ArenaStep (dispatchWindow 0) addsOne) (ArenaState.initial Nat Nat) events s ∧
      s.delivered = [(0, 6), (1, 9)] ∧
      ∀ n r, (n, r) ∈ s.delivered → ∃ packet ∈ s.accepted, packet.ordinal = n ∧
        (packet, r) ∈ s.executions ∧ (∃ stop, addsOne stop packet.payload r) ∧
        ∀ e ∈ s.executions, e.1.ordinal = n → e = (packet, r) := by
  have hstart : Runs (ArenaStep (dispatchWindow 0) addsOne) (ArenaState.initial Nat Nat) [] _ :=
    .nil
  have hsubmit := hstart.snoc (.submit ⟨0, 5⟩ rfl rfl ⟨rfl, rfl, rfl⟩ (by decide))
  have haccept := hsubmit.snoc (.accept rfl)
  have hexecute := haccept.snoc (.execute 0 6 rfl rfl rfl)
  have hclaim := hexecute.snoc (.claim 0 rfl rfl rfl)
  have hcharge := hclaim.snoc (.charge 0 rfl rfl)
  have hwrite := hcharge.snoc (.write 0 rfl rfl rfl)
  have hstore := hwrite.snoc (.store 0 rfl rfl)
  have hobserve := hstore.snoc (.observe rfl rfl ⟨rfl, rfl⟩)
  have hdeliver := hobserve.snoc (.deliver rfl rfl rfl rfl)
  have hsubmit' := hdeliver.snoc (.submit ⟨1, 8⟩ rfl rfl ⟨rfl, rfl, rfl⟩ (by decide))
  have haccept' := hsubmit'.snoc (.accept rfl)
  have hexecute' := haccept'.snoc (.execute 1 9 rfl rfl rfl)
  have hclaim' := hexecute'.snoc (.claim 1 rfl rfl rfl)
  have hcharge' := hclaim'.snoc (.charge 1 rfl rfl)
  have hwrite' := hcharge'.snoc (.write 1 rfl rfl rfl)
  have hstore' := hwrite'.snoc (.store 1 rfl rfl)
  have hobserve' := hstore'.snoc (.observe rfl rfl ⟨rfl, rfl⟩)
  have hdeliver' := hobserve'.snoc (.deliver rfl rfl rfl rfl)
  exact ⟨_, _, hdeliver', rfl, (arena_ordered_delivery hdeliver').2.2.1⟩

end SchemaSanitizer
