/-
SchemaSanitizer/ArenaExecutor.lean

The ordered executor in shared-arena mode (`internal/runtime/ordered_executor.hh`,
its submission and arena completion parts, and the completion ring).

One coordinator thread submits packets and takes outcomes; workers of an arena
execute packets and publish their outcomes into a ring of slots.  A step of the
machine is one atomic access or one critical section of the code, so that the runs
are the interleavings of the threads.  `Terminalize` holds the mutex of the slots
while it goes over them one by one; the claim of a slot and the final store of its
state do not need that mutex and can come in between.

The coordinator mutex is only taken by the coordinator in this mode and is left out,
as are memory leases, completion shards and the ordering of relaxed accesses.  The
arena accepts a packet or rejects it.  Moving an outcome into its slot does not throw.
What a worker makes of a packet is the parameter `produces`.
-/
import SchemaSanitizer.Lib.Runs

namespace SchemaSanitizer

open Lib Function

/-! ### The completion ring -/

/-- `CompletionRingCursor`. -/
structure CompletionRingCursor where
  nextSubmit : Nat := 0
  nextTake : Nat := 0
  deriving DecidableEq, Repr

/-- The slot after a slot. -/
def ringNext (capacity i : Nat) : Nat := if i + 1 = capacity then 0 else i + 1

/-- `ReserveSubmit`, without the slot it returns (`nextSubmit` before it). -/
def CompletionRingCursor.reserveSubmit (capacity : Nat) (ring : CompletionRingCursor) :
    CompletionRingCursor :=
  { ring with nextSubmit := ringNext capacity ring.nextSubmit }

/-- `RollbackSubmit`. -/
def CompletionRingCursor.rollbackSubmit (capacity : Nat) (ring : CompletionRingCursor) :
    CompletionRingCursor :=
  { ring with nextSubmit := if ring.nextSubmit = 0 then capacity - 1 else ring.nextSubmit - 1 }

/-- `AdvanceTake`. -/
def CompletionRingCursor.advanceTake (capacity : Nat) (ring : CompletionRingCursor) :
    CompletionRingCursor :=
  { ring with nextTake := ringNext capacity ring.nextTake }

/-- `dispatch_window`: the capacity of the ring, as the constructor sets it. -/
def dispatchWindow (reorderCapacity : Nat) : Nat := max 1 reorderCapacity

/-! ### Slots and tasks -/

/-- `ArenaSlotState`. -/
inductive ArenaSlotState
  | empty
  | publishing
  | ready
  | cancelled
  | fatal
  | closed
  deriving DecidableEq, Repr

/-- `ArenaOutcomeSlot`: the state, and the outcome with its ordinal. -/
structure ArenaOutcomeSlot (ρ : Type) where
  state : ArenaSlotState := .empty
  outcome : Option (Nat × ρ) := none
  deriving DecidableEq, Repr

/-- What `Terminalize` does to one slot. -/
def ArenaOutcomeSlot.terminalize {ρ : Type} (terminal : ArenaSlotState)
    (slot : ArenaOutcomeSlot ρ) : ArenaOutcomeSlot ρ :=
  match slot.state with
  | .publishing => slot
  | .cancelled => slot
  | .fatal => slot
  | .ready => ⟨terminal, none⟩
  | .empty => { slot with state := terminal }
  | .closed => { slot with state := terminal }

/-- What `close_empty_arena_slot` does to a slot. -/
def ArenaOutcomeSlot.closeEmpty {ρ : Type} (slot : ArenaOutcomeSlot ρ) : ArenaOutcomeSlot ρ :=
  if slot.state = .empty then { slot with state := .closed } else slot

/-- Where a worker is in `ExecuteExternal` and `Publish`. -/
inductive TaskPhase (ρ : Type)
  /-- in the queue of the arena -/
  | queued
  /-- `ExecutePacket` has returned -/
  | executed (result : ρ)
  /-- the slot is claimed -/
  | claimed (result : ρ)
  /-- the memory charge is transferred -/
  | charged (result : ρ)
  /-- the outcome is in the slot, or was dropped again; the state is still to be stored -/
  | written (published : ArenaSlotState)
  /-- before `Fail` -/
  | failing
  /-- `Fail` has set its flag -/
  | flagged
  /-- `Fail` goes over the slots -/
  | sweeping
  deriving DecidableEq, Repr

/-- `OrdinalPacket`. -/
structure OrdinalPacket (π : Type) where
  ordinal : Nat
  payload : π
  deriving DecidableEq, Repr

/-- A `ScheduledOrdinalPacket` in the arena. -/
structure ArenaTask (π ρ : Type) where
  packet : OrdinalPacket π
  completionSlot : Nat
  phase : TaskPhase ρ
  deriving DecidableEq, Repr

/-- Who runs `Terminalize`. -/
inductive SweepOwner
  | worker (id : Nat)
  | takeNext
  | cancel
  deriving DecidableEq, Repr

/-- `Terminalize` on its way: it holds the mutex of the slots. -/
structure Sweep where
  terminal : ArenaSlotState
  next : Nat
  owner : SweepOwner
  deriving DecidableEq, Repr

/-- Where the coordinator is. -/
inductive CoordinatorPhase (π : Type)
  | idle
  /-- `SubmitCharged` has reserved a slot, and the arena has not answered -/
  | reserved (packet : OrdinalPacket π) (slot : Nat)
  /-- `TakeNext` has seen a ready slot -/
  | observed
  /-- `TakeNext` has found an invalid outcome -/
  | failing
  | flagged
  | cancelling
  /-- the coordinator goes over the slots -/
  | sweeping
  /-- `FinishSubmission` is about to close the slot of an ordinal -/
  | closing (ordinal : Nat)
  deriving DecidableEq, Repr

/-! ### States -/

/-- The executor and what it shares with the arena.  Accepted packets are numbered in
the order of acceptance, and `tasks` gives those that are not finished.  The last
four fields record what was accepted, executed and delivered, and what the last
`FinishSubmission` found in flight. -/
structure ArenaState (π ρ : Type) where
  slots : Nat → ArenaOutcomeSlot ρ
  tasks : Nat → Option (ArenaTask π ρ)
  ring : CompletionRingCursor
  nextSubmitOrdinal : Nat
  nextTakeOrdinal : Nat
  inFlight : Nat
  accepting : Bool
  cancelled : Bool
  fatal : Bool
  cancelledFlag : Bool
  fatalFlag : Bool
  stopRequested : Bool
  sweep : Option Sweep
  coordinator : CoordinatorPhase π
  accepted : List (OrdinalPacket π)
  executions : List (OrdinalPacket π × ρ)
  delivered : List (Nat × ρ)
  finished : Option Nat

/-- A new executor. -/
def ArenaState.initial (π ρ : Type) : ArenaState π ρ where
  slots := fun _ => ⟨.empty, none⟩
  tasks := fun _ => none
  ring := ⟨0, 0⟩
  nextSubmitOrdinal := 0
  nextTakeOrdinal := 0
  inFlight := 0
  accepting := true
  cancelled := false
  fatal := false
  cancelledFlag := false
  fatalFlag := false
  stopRequested := false
  sweep := none
  coordinator := .idle
  accepted := []
  executions := []
  delivered := []
  finished := none

section Updates

variable {π ρ : Type}

/-- The state with another slot. -/
def ArenaState.setSlot (s : ArenaState π ρ) (i : Nat) (slot : ArenaOutcomeSlot ρ) :
    ArenaState π ρ :=
  { s with slots := update s.slots i slot }

/-- The state with another task. -/
def ArenaState.setTask (s : ArenaState π ρ) (id : Nat) (task : Option (ArenaTask π ρ)) :
    ArenaState π ρ :=
  { s with tasks := update s.tasks id task }

theorem ArenaState.setSlot_self (s : ArenaState π ρ) (i : Nat) (slot : ArenaOutcomeSlot ρ) :
    (s.setSlot i slot).slots i = slot := update_self ..

theorem ArenaState.setSlot_of_ne (s : ArenaState π ρ) {i j : Nat} (hne : j ≠ i)
    (slot : ArenaOutcomeSlot ρ) : (s.setSlot i slot).slots j = s.slots j :=
  update_of_ne hne ..

theorem ArenaState.setTask_self (s : ArenaState π ρ) (id : Nat) (task : Option (ArenaTask π ρ)) :
    (s.setTask id task).tasks id = task := update_self ..

theorem ArenaState.setTask_of_ne (s : ArenaState π ρ) {id id' : Nat} (hne : id' ≠ id)
    (task : Option (ArenaTask π ρ)) : (s.setTask id task).tasks id' = s.tasks id' :=
  update_of_ne hne ..

/-- A task in its next phase. -/
def ArenaState.setPhase (s : ArenaState π ρ) (id : Nat) (task : ArenaTask π ρ)
    (phase : TaskPhase ρ) : ArenaState π ρ :=
  s.setTask id (some { task with phase := phase })

/-- The reservation in `SubmitCharged`. -/
def ArenaState.reserve (capacity : Nat) (packet : OrdinalPacket π) (s : ArenaState π ρ) :
    ArenaState π ρ :=
  { s with
    ring := s.ring.reserveSubmit capacity
    nextSubmitOrdinal := s.nextSubmitOrdinal + 1
    inFlight := s.inFlight + 1
    coordinator := .reserved packet s.ring.nextSubmit }

/-- The arena has accepted the reserved packet. -/
def ArenaState.accept (packet : OrdinalPacket π) (slot : Nat) (s : ArenaState π ρ) :
    ArenaState π ρ :=
  { s.setTask s.accepted.length (some ⟨packet, slot, .queued⟩) with
    accepted := s.accepted ++ [packet]
    coordinator := .idle }

/-- The arena has rejected it: the reservation is rolled back. -/
def ArenaState.rollback (capacity : Nat) (s : ArenaState π ρ) : ArenaState π ρ :=
  { s with
    ring := s.ring.rollbackSubmit capacity
    nextSubmitOrdinal := s.nextSubmitOrdinal - 1
    inFlight := s.inFlight - 1
    coordinator := .idle }

/-- The critical section of `take_next_arena` for a valid outcome. -/
def ArenaState.deliver (capacity : Nat) (result : ρ) (s : ArenaState π ρ) : ArenaState π ρ :=
  { s.setSlot s.ring.nextTake ⟨.empty, none⟩ with
    ring := s.ring.advanceTake capacity
    nextTakeOrdinal := s.nextTakeOrdinal + 1
    inFlight := s.inFlight - 1
    coordinator := .idle
    delivered := s.delivered ++ [(s.nextTakeOrdinal, result)] }

/-- The critical section of `Publish`: the state that it decides to publish, and the
outcome that it leaves in the slot. -/
def ArenaState.published (s : ArenaState π ρ) (ordinal : Nat) (result : ρ) :
    ArenaSlotState × Option (Nat × ρ) :=
  if s.cancelledFlag then (.cancelled, none)
  else if s.fatalFlag then (.fatal, none)
  else (.ready, some (ordinal, result))

/-- The end of `Terminalize`, and what its caller does then. -/
def ArenaState.endSweep (owner : SweepOwner) (s : ArenaState π ρ) : ArenaState π ρ :=
  match owner with
  | .worker id => { s.setTask id none with sweep := none }
  | .takeNext =>
    { s with sweep := none, fatal := true, accepting := false, coordinator := .idle }
  | .cancel => { s with sweep := none, inFlight := 0, coordinator := .idle }

/-- The errors of `TakeNext`. -/
inductive TakeError
  | cancelled
  | resultBufferFailed
  | noCompletedPackets
  deriving DecidableEq, Repr

/-- The answer of `TakeNext` if no other thread comes in between; it waits as long as
there is none. -/
def ArenaState.takeNext (s : ArenaState π ρ) : Option (Except TakeError (Nat × ρ)) :=
  match (s.slots s.ring.nextTake).state with
  | .empty => none
  | .publishing => none
  | .cancelled => some (.error .cancelled)
  | .fatal => some (.error .resultBufferFailed)
  | .closed => some (.error .noCompletedPackets)
  | .ready =>
    if s.fatal then some (.error .resultBufferFailed)
    else if s.cancelled then some (.error .cancelled)
    else
      match (s.slots s.ring.nextTake).outcome with
      | none => some (.error .resultBufferFailed)
      | some outcome =>
        if outcome.1 = s.nextTakeOrdinal then some (.ok outcome)
        else some (.error .resultBufferFailed)

end Updates

/-! ### Steps -/

/-- The steps of the machine. -/
inductive ArenaEvent
  | submit | accept | reject
  | observe | deliver | invalid | takeFlag | takeSweep
  | cancel | cancelSweep
  | finish | close
  | sweepSlot | sweepEnd
  | execute | claim | refused | occupied | charge | rejectCharge | write | store
  | failFlag | failSweep
  | requestStop
  deriving DecidableEq, Repr

/-- The steps of a worker and of `Terminalize`, which go on without the coordinator. -/
def ArenaEvent.ofWorker : ArenaEvent → Bool
  | .sweepSlot | .sweepEnd | .execute | .claim | .refused | .occupied | .charge | .rejectCharge
  | .write | .store | .failFlag | .failSweep => true
  | _ => false

section Machine

variable {π ρ : Type} (capacity : Nat) (produces : Bool → π → ρ → Prop)

/-- **One step of a thread.** -/
inductive ArenaStep : ArenaState π ρ → ArenaEvent → ArenaState π ρ → Prop
  /-- `SubmitCharged` admits the next ordinal and reserves its slot. -/
  | submit {s : ArenaState π ρ} (packet : OrdinalPacket π) (hidle : s.coordinator = .idle)
      (hordinal : packet.ordinal = s.nextSubmitOrdinal)
      (hopen : s.fatal = false ∧ s.cancelled = false ∧ s.accepting = true)
      (hwindow : s.inFlight < capacity) : ArenaStep s .submit (s.reserve capacity packet)
  | accept {s : ArenaState π ρ} {packet : OrdinalPacket π} {slot : Nat}
      (hreserved : s.coordinator = .reserved packet slot) :
      ArenaStep s .accept (s.accept packet slot)
  | reject {s : ArenaState π ρ} {packet : OrdinalPacket π} {slot : Nat}
      (hreserved : s.coordinator = .reserved packet slot) :
      ArenaStep s .reject (s.rollback capacity)
  /-- `TakeNext` sees that the slot of the next ordinal is ready. -/
  | observe {s : ArenaState π ρ} (hidle : s.coordinator = .idle)
      (hready : (s.slots s.ring.nextTake).state = .ready)
      (hopen : s.fatal = false ∧ s.cancelled = false) :
      ArenaStep s .observe { s with coordinator := .observed }
  | deliver {s : ArenaState π ρ} {result : ρ} (hobserved : s.coordinator = .observed)
      (hfree : s.sweep = none) (hready : (s.slots s.ring.nextTake).state = .ready)
      (hvalid : (s.slots s.ring.nextTake).outcome = some (s.nextTakeOrdinal, result)) :
      ArenaStep s .deliver (s.deliver capacity result)
  | invalid {s : ArenaState π ρ} (hobserved : s.coordinator = .observed) (hfree : s.sweep = none)
      (hinvalid : ¬ ((s.slots s.ring.nextTake).state = .ready ∧
        ∃ result, (s.slots s.ring.nextTake).outcome = some (s.nextTakeOrdinal, result))) :
      ArenaStep s .invalid { s with coordinator := .failing }
  | takeFlag {s : ArenaState π ρ} (hfailing : s.coordinator = .failing) :
      ArenaStep s .takeFlag { s with fatalFlag := true, coordinator := .flagged }
  | takeSweep {s : ArenaState π ρ} (hflagged : s.coordinator = .flagged) (hfree : s.sweep = none) :
      ArenaStep s .takeSweep
        { s with sweep := some ⟨.fatal, 0, .takeNext⟩, coordinator := .sweeping }
  /-- `Cancel`, up to the call of `Terminalize`. -/
  | cancel {s : ArenaState π ρ} (hidle : s.coordinator = .idle) (hfirst : s.cancelled = false) :
      ArenaStep s .cancel
        { s with
          cancelled := true
          accepting := false
          cancelledFlag := true
          coordinator := .cancelling }
  | cancelSweep {s : ArenaState π ρ} (hcancelling : s.coordinator = .cancelling)
      (hfree : s.sweep = none) :
      ArenaStep s .cancelSweep
        { s with sweep := some ⟨.cancelled, 0, .cancel⟩, coordinator := .sweeping }
  /-- `FinishSubmission`; it closes the slot of the next ordinal if nothing is in flight. -/
  | finish {s : ArenaState π ρ} (hidle : s.coordinator = .idle)
      (hopen : s.fatal = false ∧ s.cancelled = false) :
      ArenaStep s .finish
        { s with
          accepting := false
          finished := some s.inFlight
          coordinator := if s.inFlight = 0 then .closing s.nextTakeOrdinal else .idle }
  | close {s : ArenaState π ρ} {ordinal : Nat} (hclosing : s.coordinator = .closing ordinal) :
      ArenaStep s .close
        { s.setSlot (ordinal % capacity) (s.slots (ordinal % capacity)).closeEmpty with
          coordinator := .idle }
  | sweepSlot {s : ArenaState π ρ} {terminal : ArenaSlotState} {next : Nat} {owner : SweepOwner}
      (hsweep : s.sweep = some ⟨terminal, next, owner⟩) (hnext : next < capacity) :
      ArenaStep s .sweepSlot
        { s.setSlot next ((s.slots next).terminalize terminal) with
          sweep := some ⟨terminal, next + 1, owner⟩ }
  | sweepEnd {s : ArenaState π ρ} {terminal : ArenaSlotState} {next : Nat} {owner : SweepOwner}
      (hsweep : s.sweep = some ⟨terminal, next, owner⟩) (hnext : next = capacity) :
      ArenaStep s .sweepEnd (s.endSweep owner)
  /-- `ExecutePacket`. -/
  | execute {s : ArenaState π ρ} (id : Nat) {task : ArenaTask π ρ} (result : ρ)
      (htask : s.tasks id = some task) (hphase : task.phase = .queued)
      (hresult : produces s.stopRequested task.packet.payload result) :
      ArenaStep s .execute
        { s.setPhase id task (.executed result) with
          executions := s.executions ++ [(task.packet, result)] }
  /-- `Publish` claims an empty slot. -/
  | claim {s : ArenaState π ρ} (id : Nat) {task : ArenaTask π ρ} {result : ρ}
      (htask : s.tasks id = some task) (hphase : task.phase = .executed result)
      (hempty : (s.slots task.completionSlot).state = .empty) :
      ArenaStep s .claim
        ((s.setPhase id task (.claimed result)).setSlot task.completionSlot
          { s.slots task.completionSlot with state := .publishing })
  /-- The slot is in a terminal state: the outcome is dropped. -/
  | refused {s : ArenaState π ρ} (id : Nat) {task : ArenaTask π ρ} {result : ρ}
      (htask : s.tasks id = some task) (hphase : task.phase = .executed result)
      (hterminal : (s.slots task.completionSlot).state = .cancelled ∨
        (s.slots task.completionSlot).state = .fatal ∨
        (s.slots task.completionSlot).state = .closed) :
      ArenaStep s .refused (s.setTask id none)
  /-- The slot is still in use. -/
  | occupied {s : ArenaState π ρ} (id : Nat) {task : ArenaTask π ρ} {result : ρ}
      (htask : s.tasks id = some task) (hphase : task.phase = .executed result)
      (hused : (s.slots task.completionSlot).state = .publishing ∨
        (s.slots task.completionSlot).state = .ready) :
      ArenaStep s .occupied (s.setPhase id task .failing)
  | charge {s : ArenaState π ρ} (id : Nat) {task : ArenaTask π ρ} {result : ρ}
      (htask : s.tasks id = some task) (hphase : task.phase = .claimed result) :
      ArenaStep s .charge (s.setPhase id task (.charged result))
  | rejectCharge {s : ArenaState π ρ} (id : Nat) {task : ArenaTask π ρ} {result : ρ}
      (htask : s.tasks id = some task) (hphase : task.phase = .claimed result) :
      ArenaStep s .rejectCharge
        ((s.setPhase id task .failing).setSlot task.completionSlot
          { s.slots task.completionSlot with state := .fatal })
  | write {s : ArenaState π ρ} (id : Nat) {task : ArenaTask π ρ} {result : ρ}
      (htask : s.tasks id = some task) (hphase : task.phase = .charged result)
      (hfree : s.sweep = none) :
      ArenaStep s .write
        ((s.setPhase id task (.written (s.published task.packet.ordinal result).1)).setSlot
          task.completionSlot
          { s.slots task.completionSlot with outcome :=
            (s.published task.packet.ordinal result).2 })
  | store {s : ArenaState π ρ} (id : Nat) {task : ArenaTask π ρ} {published : ArenaSlotState}
      (htask : s.tasks id = some task) (hphase : task.phase = .written published) :
      ArenaStep s .store
        ((s.setTask id none).setSlot task.completionSlot
          { s.slots task.completionSlot with state := published })
  | failFlag {s : ArenaState π ρ} (id : Nat) {task : ArenaTask π ρ}
      (htask : s.tasks id = some task) (hphase : task.phase = .failing) :
      ArenaStep s .failFlag { s.setPhase id task .flagged with fatalFlag := true }
  | failSweep {s : ArenaState π ρ} (id : Nat) {task : ArenaTask π ρ}
      (htask : s.tasks id = some task) (hphase : task.phase = .flagged) (hfree : s.sweep = none) :
      ArenaStep s .failSweep
        { s.setPhase id task .sweeping with sweep := some ⟨.fatal, 0, .worker id⟩ }
  /-- `Cancel` or the arena requests a stop. -/
  | requestStop {s : ArenaState π ρ} : ArenaStep s .requestStop { s with stopRequested := true }

end Machine

end SchemaSanitizer
