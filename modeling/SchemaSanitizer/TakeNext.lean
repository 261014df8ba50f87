/-
SchemaSanitizer/TakeNext.lean

`TakeNext` after the end of submission, in every execution mode.

With a queue of its own the executor always answers once its workers have stopped: with
the next outcome while ordinals remain, and with an error afterwards.  In shared-arena
mode it answers while ordinals remain; afterwards it answers if and only if the last
`FinishSubmission` found nothing in flight, and otherwise waits for ever.
-/
import SchemaSanitizer.ArenaClose
import SchemaSanitizer.PrivateOrder

namespace SchemaSanitizer

open Lib

variable {π ρ : Type}

/-- The answer that is expected after the end of submission: the outcome of the next
ordinal while ordinals remain, and then an error. -/
def AnswersEnd (next submitted : Nat) (answer : Option (Except TakeError (Nat × ρ))) : Prop :=
  (next < submitted → ∃ r, answer = some (.ok (next, r))) ∧
  (¬ next < submitted → ∃ e, answer = some (.error e))

/-! ### The private queue -/

/-- No worker thread can take a step. -/
def PrivateQuiescent (capacity workerCount : Nat) (produces : Bool → π → ρ → Prop)
    (s : PrivateState π ρ) : Prop :=
  ∀ e s', e.ofWorker = true → ¬ PrivateStep capacity workerCount produces s e s'

section Private

variable {capacity workerCount : Nat} {produces : Bool → π → ρ → Prop} {s : PrivateState π ρ}

/-- After the end of submission the threads stop only by leaving: none of them sleeps. -/
theorem PrivateQuiescent.exited (h : PrivateQuiescent capacity workerCount produces s)
    (hinv : PrivateInv capacity workerCount s) (hproduces : ∀ stop p, ∃ r, produces stop p r)
    (haccepting : s.accepting = false) (hcaller : s.caller ≠ .finishing) (w : Nat) :
    s.workers w = .exited := by
  have hopen := hinv.calm.symm
  rcases hphase : s.workers w with _ | _ | scheduled | ⟨scheduled, result⟩ | _ | _ | _
  · rcases htasks : s.tasks with _ | ⟨scheduled, rest⟩
    · exact (h _ _ rfl (.exit w hphase (.inr (.inr ⟨htasks, haccepting⟩)))).elim
    · exact (h _ _ rfl (.pop w hphase hopen htasks)).elim
  · rcases hinv.threads.sleeping w hphase with hacc | hfin
    · rw [haccepting] at hacc
      cases hacc
    · exact absurd hfin hcaller
  · obtain ⟨r, hr⟩ := hproduces false scheduled.packet.payload
    exact (h _ _ rfl (.execute w false r hphase nofun hr)).elim
  · have hslot := hinv.slot_free (w := w) (by rw [hphase]; rfl)
    exact (h _ _ rfl (.store w hphase hopen hslot)).elim
  · exact (h _ _ rfl (.notify w hphase)).elim
  · exact absurd hphase (hinv.threads.alarming w)
  · rfl

theorem PrivateQuiescent.of_exited (h : ∀ w, s.workers w = .exited) :
    PrivateQuiescent capacity workerCount produces s := by
  intro e s' hworker hstep
  cases hstep with
  | pop w hphase | sleep w hphase | exit w hphase | execute w _ _ hphase | drop w hphase
  | store w hphase | occupied w hphase | rejectCharge w hphase | notify w hphase
  | alarm w hphase => cases (h w).symm.trans hphase
  | _ => cases hworker

theorem PrivateInv.tasks_of_exited (hinv : PrivateInv capacity workerCount s)
    (hworkers : 0 < workerCount) (hexited : ∀ w, s.workers w = .exited) : s.tasks = [] := by
  rcases hinline : inlineMode workerCount with _ | _
  · exact (hinv.threads.exited 0 hinline hworkers (hexited 0)).2
  · exact hinv.inlineTasks hinline

/-- Once the workers have exited `TakeNext` answers. -/
theorem PrivateInv.answersEnd (hinv : PrivateInv capacity workerCount s)
    (haccepting : s.accepting = false) (htasks : s.tasks = [])
    (hexited : ∀ w, s.workers w = .exited) :
    AnswersEnd s.nextTakeOrdinal s.nextSubmitOrdinal s.takeNext := by
  obtain ⟨popped, hqueue, hplaced⟩ := hinv.places
  rw [htasks] at hqueue
  obtain rfl : popped = s.nextSubmitOrdinal := hqueue
  have hflying := hinv.flying
  refine ⟨fun hlt => ?_, fun hle => ?_⟩
  · rcases hplaced.placed s.nextTakeOrdinal le_rfl hlt with ⟨w, t, ht, -⟩ | ⟨r, hr⟩
    · rw [hexited] at ht
      cases ht
    · have hnext : s.nextOutcome = some (s.nextTakeOrdinal, r) := by
        rw [PrivateState.nextOutcome, hinv.ringTake, hr]
        simp
      exact ⟨r, by rw [hinv.takeNext_eq, hnext]⟩
  · have hzero : s.inFlight = 0 := by omega
    have hnone : s.nextOutcome = none := by
      rw [PrivateState.nextOutcome]
      rcases hc : s.completed s.ring.nextTake with _ | ⟨n, r⟩
      · rfl
      · have := hplaced.stored _ _ _ hc
        omega
    exact ⟨_, by rw [hinv.takeNext_eq, hnone]; exact if_pos ⟨haccepting, hzero⟩⟩

end Private

/-! ### The shared arena -/

section Arena

variable {capacity : Nat} {produces : Bool → π → ρ → Prop} {s s' : ArenaState π ρ}

/-- In a calm run only `Cancel` sets `cancelled_`. -/
structure ArenaCalmInv (capacity : Nat) (produces : Bool → π → ρ → Prop) (s : ArenaState π ρ) :
    Prop where
  inv : ArenaInv capacity produces s
  calm : Calm s
  closed : ClosedFits capacity s
  cancelled : s.cancelled = false

theorem ArenaCalmInv.initial : ArenaCalmInv capacity produces (ArenaState.initial π ρ) :=
  ⟨ArenaInv.initial, Calm.initial, ClosedFits.initial, rfl⟩

theorem ArenaCalmInv.step (hcap : 0 < capacity) {e : ArenaEvent}
    (h : ArenaCalmInv capacity produces s) (hcancel : e ≠ .cancel) (hcharge : e ≠ .rejectCharge)
    (hstep : ArenaStep capacity produces s e s') : ArenaCalmInv capacity produces s' where
  inv := h.inv.step hcap hstep
  calm := h.calm.step h.inv hcancel hcharge hstep
  closed := h.closed.step h.inv h.calm hcancel hcharge hstep
  cancelled := by
    have hcancelled := h.cancelled
    cases hstep <;> first | exact hcancelled | exact absurd rfl hcancel | skip
    -- the end of `Terminalize` is the only step that is not plain
    next owner hsweep hnext => cases owner <;> exact hcancelled

/-- **The end of submission in shared-arena mode.** -/
theorem ArenaCalmInv.answersEnd_iff (h : ArenaCalmInv capacity produces s)
    (hproduces : ∀ stop p, ∃ r, produces stop p r) (hquiet : Quiescent capacity produces s)
    (hidle : s.coordinator = .idle) {found : Nat} (hfinished : s.finished = some found) :
    AnswersEnd s.nextTakeOrdinal s.nextSubmitOrdinal s.takeNext ↔
      s.nextTakeOrdinal < s.nextSubmitOrdinal ∨ found = 0 := by
  have hsubmit := h.inv.counters.settled (by rw [hidle]; rfl)
  have htasks := hquiet.tasks h.calm hproduces
  rcases Nat.lt_or_ge s.nextTakeOrdinal s.nextSubmitOrdinal with hlt | hge
  · have hanswer := takeNext_of_remaining h.inv h.calm h.closed h.cancelled htasks
      (by rwa [← hsubmit])
    exact ⟨fun _ => .inl hlt, fun _ => ⟨fun _ => hanswer, fun hnot => absurd hlt hnot⟩⟩
  · have htaken := h.inv.counters.taken
    have hanswer := takeNext_of_delivered h.inv h.calm h.closed hidle hfinished (by omega)
    refine ⟨fun hends => .inr ?_, fun hcond => ⟨fun hlt => by omega, fun _ => ?_⟩⟩
    · obtain ⟨e, he⟩ := hends.2 (by omega)
      by_contra hfound
      rw [hanswer, if_neg hfound] at he
      cases he
    · rw [hanswer, if_pos (hcond.resolve_left (by omega))]
      exact ⟨_, rfl⟩

/-- Nobody is left who could change the slot that `TakeNext` waits on. -/
structure Stuck (s : ArenaState π ρ) : Prop where
  tasks : ∀ id, s.tasks id = none
  sweep : s.sweep = none
  idle : s.coordinator = .idle
  waits : s.takeNext = none

/-- The events with which the coordinator begins another call. -/
def ArenaEvent.Call (e : ArenaEvent) : Prop := e = .submit ∨ e = .finish ∨ e = .cancel

/-- A stuck arena stays so until it is called. -/
theorem Stuck.step {e : ArenaEvent} (h : Stuck s) (hcall : ¬ e.Call)
    (hstep : ArenaStep capacity produces s e s') : Stuck s' := by
  rcases hworker : e.ofWorker with _ | _
  · cases hstep with
    | submit => exact absurd (.inl rfl) hcall
    | accept hc | reject hc | deliver hc | invalid hc | takeFlag hc | takeSweep hc | cancelSweep hc
    | close hc => cases h.idle.symm.trans hc
    | observe hidle hready =>
      have hwaits := h.waits
      rw [ArenaState.takeNext, hready] at hwaits
      simp only at hwaits
      split_ifs at hwaits
      split at hwaits
      · cases hwaits
      · split_ifs at hwaits
    | cancel => exact absurd (.inr (.inr rfl)) hcall
    | finish => exact absurd (.inr (.inl rfl)) hcall
    | requestStop => exact { h with }
    | _ => cases hworker
  · exact absurd hstep (Quiescent.of_tasks h.tasks h.sweep _ _ hworker)

theorem Stuck.forever (h : Stuck s) {events : List ArenaEvent}
    (hrun : Runs (ArenaStep capacity produces) s events s') (hcalls : ∀ e ∈ events, ¬ e.Call) :
    s'.takeNext = none :=
  (hrun.invariant_of (I := Stuck) (E := fun e => ¬ e.Call) h
    (fun _ _ _ hs he hst => hs.step he hst) hcalls).waits

end Arena

/-! ### All modes -/

/-- **`TakeNext` after the end of submission**, in runs without cancellation and without
a rejected charge, once no worker can go on.  With a queue of its own (in `Submit` itself
or with a pool of threads) the executor answers as expected, and no wake-up is lost.  In
shared-arena mode it does so if and only if ordinals remain or the last
`FinishSubmission` found nothing in flight; otherwise it waits for ever. -/
theorem takeNext_after_finish (reorderCapacity workerCount : Nat) (produces : Bool → π → ρ → Prop)
    (hproduces : ∀ stop p, ∃ r, produces stop p r) :
    (∀ events (s : PrivateState π ρ),
      Runs (PrivateStep (dispatchWindow reorderCapacity) (max 1 workerCount) produces)
        (PrivateState.initial π ρ (max 1 workerCount)) events s →
      PrivateEvent.cancel ∉ events → PrivateEvent.rejectCharge ∉ events →
      PrivateEvent.inlineRejectCharge ∉ events → s.accepting = false → s.caller ≠ .finishing →
      PrivateQuiescent (dispatchWindow reorderCapacity) (max 1 workerCount) produces s →
      s.caller ≠ .waiting ∧ AnswersEnd s.nextTakeOrdinal s.nextSubmitOrdinal s.takeNext) ∧
    (∀ events (s : ArenaState π ρ) (found : Nat),
      Runs (ArenaStep (dispatchWindow reorderCapacity) produces) (ArenaState.initial π ρ) events s →
      ArenaEvent.cancel ∉ events → ArenaEvent.rejectCharge ∉ events →
      s.finished = some found → s.coordinator = .idle →
      Quiescent (dispatchWindow reorderCapacity) produces s →
      (AnswersEnd s.nextTakeOrdinal s.nextSubmitOrdinal s.takeNext ↔
        s.nextTakeOrdinal < s.nextSubmitOrdinal ∨ found = 0) ∧
      (¬ (s.nextTakeOrdinal < s.nextSubmitOrdinal ∨ found = 0) → ∀ events' s',
        Runs (ArenaStep (dispatchWindow reorderCapacity) produces) s events' s' →
        (∀ e ∈ events', ¬ e.Call) → s'.takeNext = none)) := by
  have hcap : 0 < dispatchWindow reorderCapacity := Nat.lt_of_lt_of_le Nat.one_pos (le_max_left ..)
  refine ⟨fun events s hrun hcancel hcharge hinline hacc hcaller hquiet => ?_,
    fun events s found hrun hcancel hcharge hfinished hidle hquiet => ?_⟩
  · have hinv : PrivateInv (dispatchWindow reorderCapacity) (max 1 workerCount) s := by
      refine hrun.invariant_of (E := PrivateEvent.Calm) PrivateInv.initial
        (fun _ _ _ h he hs => h.step hcap he hs) fun e he => ⟨?_, ?_, ?_⟩
      · rintro rfl
        exact hcancel he
      · rintro rfl
        exact hcharge he
      · rintro rfl
        exact hinline he
    have hexited := hquiet.exited hinv hproduces hacc hcaller
    have htasks := hinv.tasks_of_exited (Nat.lt_of_lt_of_le Nat.one_pos (le_max_left ..)) hexited
    have hanswers := hinv.answersEnd hacc htasks hexited
    refine ⟨fun hwaiting => ?_, hanswers⟩
    rcases hinv.watched hwaiting with hnone | ⟨w, hw⟩
    · by_cases hlt : s.nextTakeOrdinal < s.nextSubmitOrdinal
      · obtain ⟨r, hr⟩ := hanswers.1 hlt
        rw [hnone] at hr
        cases hr
      · obtain ⟨e, he⟩ := hanswers.2 hlt
        rw [hnone] at he
        cases he
    · rw [hexited] at hw
      cases hw
  · have hinv : ArenaCalmInv (dispatchWindow reorderCapacity) produces s := by
      refine hrun.invariant_of (E := fun e => e ≠ .cancel ∧ e ≠ .rejectCharge) ArenaCalmInv.initial
        (fun _ _ _ h he hs => h.step hcap he.1 he.2 hs) fun e he => ⟨?_, ?_⟩
      · rintro rfl
        exact hcancel he
      · rintro rfl
        exact hcharge he
    refine ⟨hinv.answersEnd_iff hproduces hquiet hidle hfinished, fun hnot events' s' hrun' => ?_⟩
    have hsubmit := hinv.inv.counters.settled (by rw [hidle]; rfl)
    have htaken := hinv.inv.counters.taken
    have hwaits := takeNext_of_delivered hinv.inv hinv.calm hinv.closed hidle hfinished (by omega)
    rw [if_neg (by omega)] at hwaits
    exact Stuck.forever ⟨hquiet.tasks hinv.calm hproduces, hinv.calm.sweep, hidle, hwaits⟩ hrun'

/-- A packet goes through a pool of two, and both threads leave after `FinishSubmission`. -/
theorem exists_private_end : ∃ (events : List PrivateEvent) (s : PrivateState Nat Nat),
    Runs (PrivateStep (dispatchWindow 0) 2 addsOne) (PrivateState.initial Nat Nat 2) events s ∧
    (PrivateEvent.cancel ∉ events ∧ PrivateEvent.rejectCharge ∉ events ∧
      PrivateEvent.inlineRejectCharge ∉ events) ∧
    (s.accepting = false ∧ s.caller = .idle ∧ s.nextSubmitOrdinal = 1) ∧
    ∀ w, s.workers w = .exited := by
  have hstart : Runs (PrivateStep (dispatchWindow 0) 2 addsOne) (PrivateState.initial Nat Nat 2)
      [] _ := .nil
  have hsleep := hstart.snoc (.sleep 0 rfl ⟨rfl, rfl⟩ rfl rfl)
  have hsubmit := hsleep.snoc (.submit ⟨0, 5⟩ rfl ⟨rfl, rfl, ⟨rfl, rfl, rfl⟩, by decide⟩)
  have hsignal := hsubmit.snoc (.signal 0 rfl rfl)
  have hpop := hsignal.snoc (.pop 0 rfl ⟨rfl, rfl⟩ rfl)
  have hexecute := hpop.snoc (.execute 0 false 6 rfl nofun rfl)
  have hstore := hexecute.snoc (.store 0 rfl ⟨rfl, rfl⟩ rfl)
  have hnotify := hstore.snoc (.notify 0 rfl)
  have hfinish := hnotify.snoc (.finish rfl ⟨rfl, rfl⟩)
  have hfinished := hfinish.snoc (.finishNotify rfl)
  have hexit := hfinished.snoc (.exit 0 rfl (.inr (.inr ⟨rfl, rfl⟩)))
  have hexit' := hexit.snoc (.exit 1 rfl (.inr (.inr ⟨rfl, rfl⟩)))
  exact ⟨_, _, hexit', ⟨by simp, by simp, by simp⟩, ⟨rfl, rfl, rfl⟩,
    fun | 0 => rfl | 1 => rfl | _ + 2 => rfl⟩

/-- With a pool a packet is ready when `FinishSubmission` is called, and `TakeNext` hands it out;
in the arena one has been delivered before, and `TakeNext` ends. -/
theorem takeNext_after_finish_packets :
    (∃ (events : List PrivateEvent) (s : PrivateState Nat Nat),
      Runs (PrivateStep (dispatchWindow 0) 2 addsOne) (PrivateState.initial Nat Nat 2) events s ∧
      s.nextSubmitOrdinal = 1 ∧ s.accepting = false ∧ s.caller ≠ .waiting ∧
      AnswersEnd s.nextTakeOrdinal s.nextSubmitOrdinal s.takeNext) ∧
    ∃ (events : List ArenaEvent) (s : ArenaState Nat Nat),
      Runs (ArenaStep (dispatchWindow 0) addsOne) (ArenaState.initial Nat Nat) events s ∧
      s.delivered = [(0, 6)] ∧ s.finished = some 0 ∧
      AnswersEnd s.nextTakeOrdinal s.nextSubmitOrdinal s.takeNext := by
  have hend := takeNext_after_finish 0 2 addsOne fun _ p => ⟨p + 1, rfl⟩
  constructor
  · obtain ⟨events, s, hrun, ⟨hcancel, hcharge, hinline⟩, ⟨hacc, hidle, hsubmitted⟩, hexited⟩ :=
      exists_private_end
    obtain ⟨hawake, hanswers⟩ := hend.1 events s hrun hcancel hcharge hinline hacc
      (by rw [hidle]; nofun) (PrivateQuiescent.of_exited hexited)
    exact ⟨events, s, hrun, hsubmitted, hacc, hawake, hanswers⟩
  · have hstart : Runs (ArenaStep (dispatchWindow 0) addsOne) (ArenaState.initial Nat Nat) [] _ :=
      .nil
    have hsubmit := hstart.snoc (.submit ⟨0, 5⟩ rfl rfl ⟨rfl, rfl, rfl⟩ (by decide))
    have haccept := hsubmit.snoc (.accept rfl)
    have hexecute := haccept.snoc (.execute 0 6 rfl rfl rfl)
    have hclaim := hexecute.snoc (.claim 0 rfl rfl rfl)
    have hcharge := hclaim.snoc (.charge 0 rfl rfl)
    have hwrite := hcharge.snoc (.write 0 rfl rfl rfl)
    have hstore := hwrite.snoc (.store 0 rfl rfl)
    have hobserve := hstore.snoc (.observe rfl rfl ⟨rfl, rfl⟩)
    have hdeliver := hobserve.snoc (.deliver rfl rfl rfl rfl)
    have hfinish := hdeliver.snoc (.finish rfl ⟨rfl, rfl⟩)
    have hclose := hfinish.snoc (.close rfl)
    have hanswers := hend.2 _ _ 0 hclose (by simp) (by simp) rfl rfl
      (Quiescent.of_tasks (fun id => by cases id <;> rfl) rfl)
    exact ⟨_, _, hclose, rfl, rfl, hanswers.1.mpr (.inr rfl)⟩

/-- One packet is submitted and executed, `FinishSubmission` returns, the packet is
delivered: from then on nothing answers `TakeNext`. -/
theorem takeNext_blocks_after_delivery :
    ∃ (events : List ArenaEvent) (s : ArenaState Nat Nat),
      Runs (ArenaStep (dispatchWindow 0) addsOne) (ArenaState.initial Nat Nat) events s ∧
      ArenaEvent.cancel ∉ events ∧ ArenaEvent.rejectCharge ∉ events ∧
      s.finished = some 1 ∧ s.coordinator = .idle ∧
      Quiescent (dispatchWindow 0) addsOne s ∧ s.delivered = [(0, 6)] ∧
      ¬ AnswersEnd s.nextTakeOrdinal s.nextSubmitOrdinal s.takeNext ∧
      ∀ events' s', Runs (ArenaStep (dispatchWindow 0) addsOne) s events' s' →
        (∀ e ∈ events', ¬ e.Call) → s'.takeNext = none := by
  have hstart : Runs (ArenaStep (dispatchWindow 0) addsOne) (ArenaState.initial Nat Nat) [] _ :=
    .nil
  have hsubmit := hstart.snoc (.submit ⟨0, 5⟩ rfl rfl ⟨rfl, rfl, rfl⟩ (by decide))
  have haccept := hsubmit.snoc (.accept rfl)
  have hexecute := haccept.snoc (.execute 0 6 rfl rfl rfl)
  have hclaim := hexecute.snoc (.claim 0 rfl rfl rfl)
  have hcharge := hclaim.snoc (.charge 0 rfl rfl)
  have hwrite := hcharge.snoc (.write 0 rfl rfl rfl)
  have hstore := hwrite.snoc (.store 0 rfl rfl)
  have hfinish := hstore.snoc (.finish rfl ⟨rfl, rfl⟩)
  have hobserve := hfinish.snoc (.observe rfl rfl ⟨rfl, rfl⟩)
  have hdeliver := hobserve.snoc (.deliver rfl rfl rfl rfl)
  have hend : ∃ (events : List ArenaEvent) (s : ArenaState Nat Nat),
      Runs (ArenaStep (dispatchWindow 0) addsOne) (ArenaState.initial Nat Nat) events s ∧
      (ArenaEvent.cancel ∉ events ∧ ArenaEvent.rejectCharge ∉ events) ∧
      (s.finished = some 1 ∧ s.delivered = [(0, 6)]) ∧ Stuck s ∧
      ¬ s.nextTakeOrdinal < s.nextSubmitOrdinal :=
    ⟨_, _, hdeliver, ⟨by simp, by simp⟩, ⟨rfl, rfl⟩,
      ⟨fun id => by cases id <;> rfl, rfl, rfl, rfl⟩, by decide⟩
  obtain ⟨events, s, hrun, ⟨hcancel, hcharge⟩, ⟨hfinished, hdelivered⟩, hstuck, hlast⟩ := hend
  refine ⟨events, s, hrun, hcancel, hcharge, hfinished, hstuck.idle,
    Quiescent.of_tasks hstuck.tasks hstuck.sweep, hdelivered, fun hends => ?_,
    fun _ _ hrun' => hstuck.forever hrun'⟩
  obtain ⟨e, he⟩ := hends.2 hlast
  rw [hstuck.waits] at he
  cases he

end SchemaSanitizer
