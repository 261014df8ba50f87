/-
SchemaSanitizer/PrivateExecutor.lean

The ordered executor with a queue of its own (`internal/runtime/ordered_executor.hh`):
with one worker it executes packets inside `Submit`, with more it starts a pool of
worker threads.

A step is one critical section of the mutex, or one notification of a condition
variable, which the code sends after it has released the mutex.  A thread that waits on
a condition variable sleeps until it is notified (or wakes for no reason) and then tests
its predicate again.

Retained bytes are left out: whether the charge of an outcome is accepted is open.  So is
the wait of `Submit` for room in the queue, which only delays it, and moves that throw.
-/
import SchemaSanitizer.ArenaExecutor

namespace SchemaSanitizer

open Function

/-- A `ScheduledOrdinalPacket` of the private queue. -/
structure ScheduledPacket (π : Type) where
  packet : OrdinalPacket π
  completionSlot : Nat
  deriving DecidableEq, Repr

/-- Where a worker thread is in `worker_loop`. -/
inductive WorkerPhase (π ρ : Type)
  /-- before the test of the predicate of `task_ready_` -/
  | polling
  /-- waits on `task_ready_` -/
  | sleeping
  | active (scheduled : ScheduledPacket π)
  | executed (scheduled : ScheduledPacket π) (result : ρ)
  /-- before the notification of `result_ready_` -/
  | notifying
  /-- before the notification of everybody, after a failure -/
  | alarming
  | exited
  deriving DecidableEq, Repr

/-- Where the coordinator is. -/
inductive CallerPhase
  | idle
  /-- `Submit`, before the notification of `task_ready_` -/
  | signalling
  /-- `FinishSubmission`, before its notifications -/
  | finishing
  /-- `Cancel`, before its notifications -/
  | cancelling
  /-- `TakeNext`, before the test of its predicate -/
  | taking
  /-- `TakeNext` waits on `result_ready_` -/
  | waiting
  deriving DecidableEq, Repr

/-- The executor with its worker threads. -/
structure PrivateState (π ρ : Type) where
  tasks : List (ScheduledPacket π)
  workers : Nat → WorkerPhase π ρ
  completed : Nat → Option (Nat × ρ)
  ring : CompletionRingCursor
  nextSubmitOrdinal : Nat
  nextTakeOrdinal : Nat
  inFlight : Nat
  accepting : Bool
  cancelled : Bool
  fatal : Bool
  caller : CallerPhase

/-- `inline_mode`. -/
def inlineMode (workerCount : Nat) : Bool := workerCount == 1

/-- A new executor with its threads started. -/
def PrivateState.initial (π ρ : Type) (workerCount : Nat) : PrivateState π ρ where
  tasks := []
  workers := fun w =>
    if inlineMode workerCount = false ∧ w < workerCount then .polling else .exited
  completed := fun _ => none
  ring := ⟨0, 0⟩
  nextSubmitOrdinal := 0
  nextTakeOrdinal := 0
  inFlight := 0
  accepting := true
  cancelled := false
  fatal := false
  caller := .idle

section Updates

variable {π ρ : Type}

/-- The state with a worker in another phase. -/
def PrivateState.setWorker (s : PrivateState π ρ) (w : Nat) (phase : WorkerPhase π ρ) :
    PrivateState π ρ :=
  { s with workers := update s.workers w phase }

theorem PrivateState.setWorker_self (s : PrivateState π ρ) (w : Nat) (phase : WorkerPhase π ρ) :
    (s.setWorker w phase).workers w = phase := update_self ..

theorem PrivateState.setWorker_of_ne (s : PrivateState π ρ) {w w' : Nat} (hne : w' ≠ w)
    (phase : WorkerPhase π ρ) : (s.setWorker w phase).workers w' = s.workers w' :=
  update_of_ne hne ..

/-- The phase after a notification. -/
def WorkerPhase.wake : WorkerPhase π ρ → WorkerPhase π ρ
  | .sleeping => .polling
  | phase => phase

/-- The phase of the coordinator after a notification of `result_ready_`. -/
def CallerPhase.wake : CallerPhase → CallerPhase
  | .waiting => .taking
  | phase => phase

/-- `task_ready_.notify_all`. -/
def PrivateState.wakeWorkers (s : PrivateState π ρ) : PrivateState π ρ :=
  { s with workers := fun w => (s.workers w).wake }

/-- The outcome of the next ordinal, if it is there (`next_outcome_ready_locked`). -/
def PrivateState.nextOutcome (s : PrivateState π ρ) : Option (Nat × ρ) :=
  (s.completed s.ring.nextTake).filter fun outcome => outcome.1 == s.nextTakeOrdinal

/-- The answer of `TakeNext` when it tests its predicate; without one it waits. -/
def PrivateState.takeNext (s : PrivateState π ρ) : Option (Except TakeError (Nat × ρ)) :=
  if s.fatal then some (.error .resultBufferFailed)
  else if s.cancelled then some (.error .cancelled)
  else
    match s.nextOutcome with
    | some outcome => some (.ok outcome)
    | none =>
      if s.accepting = false ∧ s.inFlight = 0 then some (.error .noCompletedPackets) else none

/-- `Submit` admits a packet: the counters. -/
def PrivateState.enrol (capacity : Nat) (s : PrivateState π ρ) : PrivateState π ρ :=
  { s with
    ring := s.ring.reserveSubmit capacity
    nextSubmitOrdinal := s.nextSubmitOrdinal + 1
    inFlight := s.inFlight + 1 }

/-- An outcome is stored (`store_outcome_locked`). -/
def PrivateState.storeOutcome (s : PrivateState π ρ) (slot : Nat) (outcome : Nat × ρ) :
    PrivateState π ρ :=
  { s with completed := update s.completed slot (some outcome) }

/-- A worker could not store its outcome. -/
def PrivateState.fail (s : PrivateState π ρ) : PrivateState π ρ :=
  { s with fatal := true, accepting := false, tasks := [], completed := fun _ => none }

/-- `TakeNext` hands out the outcome of the next ordinal. -/
def PrivateState.deliver (capacity : Nat) (s : PrivateState π ρ) : PrivateState π ρ :=
  { s with
    completed := update s.completed s.ring.nextTake none
    nextTakeOrdinal := s.nextTakeOrdinal + 1
    ring := s.ring.advanceTake capacity
    inFlight := s.inFlight - 1
    caller := .idle }

end Updates

/-! ### Steps -/

/-- The steps of the machine. -/
inductive PrivateEvent
  | submit | signal | signalNobody | submitInline | inlineOccupied | inlineRejectCharge
  | take | answer | refuse | wait
  | finish | finishNotify
  | cancel | cancelNotify
  | pop | sleep | exit | execute | drop | store | occupied | rejectCharge | notify | alarm
  | spuriousWake
  deriving DecidableEq, Repr

/-- The steps of the worker threads. -/
def PrivateEvent.ofWorker : PrivateEvent → Bool
  | .pop | .sleep | .exit | .execute | .drop | .store | .occupied | .rejectCharge | .notify
  | .alarm => true
  | _ => false

section Machine

variable {π ρ : Type} (capacity workerCount : Nat) (produces : Bool → π → ρ → Prop)

/-- What `Submit` checks first. -/
structure PrivateState.Admits (s : PrivateState π ρ) (packet : OrdinalPacket π) : Prop where
  idle : s.caller = .idle
  ordinal : packet.ordinal = s.nextSubmitOrdinal
  open_ : s.fatal = false ∧ s.cancelled = false ∧ s.accepting = true
  window : s.inFlight < capacity

/-- **One step of a thread.** -/
inductive PrivateStep : PrivateState π ρ → PrivateEvent → PrivateState π ρ → Prop
  /-- `Submit` puts the packet into the queue. -/
  | submit {s : PrivateState π ρ} (packet : OrdinalPacket π)
    (hpool : inlineMode workerCount = false)
      (hadmits : s.Admits capacity packet) :
      PrivateStep s .submit
        { s.enrol capacity with
          tasks := s.tasks ++ [⟨packet, s.ring.nextSubmit⟩]
          caller := .signalling }
  /-- `task_ready_.notify_one` wakes one of those that sleep. -/
  | signal {s : PrivateState π ρ} (w : Nat) (hsignalling : s.caller = .signalling)
      (hsleeping : s.workers w = .sleeping) :
      PrivateStep s .signal { s.setWorker w .polling with caller := .idle }
  | signalNobody {s : PrivateState π ρ} (hsignalling : s.caller = .signalling)
      (hawake : ∀ w, s.workers w ≠ .sleeping) :
      PrivateStep s .signalNobody { s with caller := .idle }
  /-- `Submit` executes the packet itself and stores the outcome. -/
  | submitInline {s : PrivateState π ρ} (packet : OrdinalPacket π) (result : ρ)
      (hinline : inlineMode workerCount = true) (hadmits : s.Admits capacity packet)
      (hresult : produces false packet.payload result)
      (hslot : s.completed s.ring.nextSubmit = none) :
      PrivateStep s .submitInline
        ((s.enrol capacity).storeOutcome s.ring.nextSubmit (packet.ordinal, result))
  | inlineOccupied {s : PrivateState π ρ} (packet : OrdinalPacket π)
      (hinline : inlineMode workerCount = true) (hadmits : s.Admits capacity packet)
      (hslot : s.completed s.ring.nextSubmit ≠ none) :
      PrivateStep s .inlineOccupied { s.enrol capacity with fatal := true, accepting := false }
  | inlineRejectCharge {s : PrivateState π ρ} (packet : OrdinalPacket π)
      (hinline : inlineMode workerCount = true) (hadmits : s.Admits capacity packet) :
      PrivateStep s .inlineRejectCharge
        { s.enrol capacity with fatal := true, accepting := false }
  | take {s : PrivateState π ρ} (hidle : s.caller = .idle) :
      PrivateStep s .take { s with caller := .taking }
  | answer {s : PrivateState π ρ} {outcome : Nat × ρ} (htaking : s.caller = .taking)
      (hanswer : s.takeNext = some (.ok outcome)) : PrivateStep s .answer (s.deliver capacity)
  | refuse {s : PrivateState π ρ} {error : TakeError} (htaking : s.caller = .taking)
      (hanswer : s.takeNext = some (.error error)) :
      PrivateStep s .refuse { s with caller := .idle }
  | wait {s : PrivateState π ρ} (htaking : s.caller = .taking) (hanswer : s.takeNext = none) :
      PrivateStep s .wait { s with caller := .waiting }
  /-- `FinishSubmission`. -/
  | finish {s : PrivateState π ρ} (hidle : s.caller = .idle)
      (hopen : s.fatal = false ∧ s.cancelled = false) :
      PrivateStep s .finish { s with accepting := false, caller := .finishing }
  | finishNotify {s : PrivateState π ρ} (hfinishing : s.caller = .finishing) :
      PrivateStep s .finishNotify { s.wakeWorkers with caller := .idle }
  /-- `Cancel`. -/
  | cancel {s : PrivateState π ρ} (hidle : s.caller = .idle) (hfirst : s.cancelled = false) :
      PrivateStep s .cancel
        { s with
          cancelled := true
          accepting := false
          tasks := []
          completed := fun _ => none
          inFlight := 0
          caller := .cancelling }
  | cancelNotify {s : PrivateState π ρ} (hcancelling : s.caller = .cancelling) :
      PrivateStep s .cancelNotify { s.wakeWorkers with caller := .idle }
  /-- A worker takes the front of the queue. -/
  | pop {s : PrivateState π ρ} (w : Nat) {scheduled : ScheduledPacket π}
      {rest : List (ScheduledPacket π)} (hpolling : s.workers w = .polling)
      (hopen : s.cancelled = false ∧ s.fatal = false) (htasks : s.tasks = scheduled :: rest) :
      PrivateStep s .pop { s.setWorker w (.active scheduled) with tasks := rest }
  | sleep {s : PrivateState π ρ} (w : Nat) (hpolling : s.workers w = .polling)
      (hopen : s.cancelled = false ∧ s.fatal = false) (htasks : s.tasks = [])
      (haccepting : s.accepting = true) : PrivateStep s .sleep (s.setWorker w .sleeping)
  | exit {s : PrivateState π ρ} (w : Nat) (hpolling : s.workers w = .polling)
      (hover : s.cancelled = true ∨ s.fatal = true ∨ (s.tasks = [] ∧ s.accepting = false)) :
      PrivateStep s .exit (s.setWorker w .exited)
  /-- `execute_packet`; only `Cancel` requests a stop. -/
  | execute {s : PrivateState π ρ} (w : Nat) {scheduled : ScheduledPacket π} (stop : Bool)
      (result : ρ) (hactive : s.workers w = .active scheduled)
      (hstop : stop = true → s.cancelled = true)
      (hresult : produces stop scheduled.packet.payload result) :
      PrivateStep s .execute (s.setWorker w (.executed scheduled result))
  /-- The executor was closed meanwhile: the outcome is dropped. -/
  | drop {s : PrivateState π ρ} (w : Nat) {scheduled : ScheduledPacket π} {result : ρ}
      (hexecuted : s.workers w = .executed scheduled result)
      (hover : s.cancelled = true ∨ s.fatal = true) :
      PrivateStep s .drop (s.setWorker w .exited)
  | store {s : PrivateState π ρ} (w : Nat) {scheduled : ScheduledPacket π} {result : ρ}
      (hexecuted : s.workers w = .executed scheduled result)
      (hopen : s.cancelled = false ∧ s.fatal = false)
      (hslot : s.completed scheduled.completionSlot = none) :
      PrivateStep s .store
        ((s.storeOutcome scheduled.completionSlot (scheduled.packet.ordinal, result)).setWorker w
          (if (s.storeOutcome scheduled.completionSlot
              (scheduled.packet.ordinal, result)).nextOutcome.isSome then .notifying
          else .polling))
  /-- The slot of the outcome is in use. -/
  | occupied {s : PrivateState π ρ} (w : Nat) {scheduled : ScheduledPacket π} {result : ρ}
      (hexecuted : s.workers w = .executed scheduled result)
      (hopen : s.cancelled = false ∧ s.fatal = false)
      (hslot : s.completed scheduled.completionSlot ≠ none) :
      PrivateStep s .occupied (s.fail.setWorker w .alarming)
  | rejectCharge {s : PrivateState π ρ} (w : Nat) {scheduled : ScheduledPacket π} {result : ρ}
      (hexecuted : s.workers w = .executed scheduled result)
      (hopen : s.cancelled = false ∧ s.fatal = false) :
      PrivateStep s .rejectCharge (s.fail.setWorker w .alarming)
  | notify {s : PrivateState π ρ} (w : Nat) (hnotifying : s.workers w = .notifying) :
      PrivateStep s .notify { s.setWorker w .polling with caller := s.caller.wake }
  | alarm {s : PrivateState π ρ} (w : Nat) (halarming : s.workers w = .alarming) :
      PrivateStep s .alarm
        { (s.setWorker w .exited).wakeWorkers with caller := s.caller.wake }
  | spuriousWake {s : PrivateState π ρ} (w : Nat) :
      PrivateStep s .spuriousWake
        { s.setWorker w (s.workers w).wake with caller := s.caller.wake }

end Machine

end SchemaSanitizer
