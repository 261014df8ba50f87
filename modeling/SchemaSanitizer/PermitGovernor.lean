/-
SchemaSanitizer/PermitGovernor.lean

Weighted admission for remote I/O (`remote_impl/io_permits.py`).

Every method works under one lock, so that a run is a sequence of locked sections
(`IoEvent`).  A waiter is in the list of its state: `waiting`, `granted`, and `closed`
for the delivered and the cancelled ones.  The code changes the state of a waiter and
its queue in one section; that a queue holds a waiter that is not queued, which the
code checks for, cannot be written down here.  The queues of the operations are one
list in order of arrival, and `operationWaiters` picks those of one operation.  An
empty bucket of operations and a bucket that does not exist are the same.

What the environment decides is part of the event: the system pressure, whether the
control plane commits the retirement of a ticket, which deferred retirements it makes up
for later, and internal failures, which may leave anything in the index of weights.
Statistics and fork banks are left out.
-/
import SchemaSanitizer.Lib.Runs

namespace SchemaSanitizer

open Function

/-- `_MAX_HEAD_BYPASSES`. -/
def maxHeadBypasses : Nat := 4

/-- `_MAX_LOCAL_BYPASS_SCAN`. -/
def maxLocalBypassScan : Nat := 32

/-- A `ControlPlaneTicket`.  `gone` is a released ticket, or none. -/
inductive ControlTicket
  | held
  /-- `retire_requested`: its release was refused, and it waits for the next drain. -/
  | deferred
  | gone
  deriving DecidableEq, Repr

/-- `release_control_plane`, which is refused or not.  One that raises is like one that is refused
and never drained. -/
def ControlTicket.release (retires : Bool) : ControlTicket → ControlTicket
  | .gone => .gone
  | _ => if retires then .gone else .deferred

/-- `drain_requested_retirements`, which reaches the ticket or not. -/
def ControlTicket.drain (reached : Bool) : ControlTicket → ControlTicket
  | .deferred => if reached then .gone else .deferred
  | ticket => ticket

/-- `_Waiter`, numbered when it is queued. -/
structure IoWaiter (Op : Type) where
  id : Nat
  operationId : Op
  requestedWeight : Nat
  bypasses : Nat := 0
  grantedWeight : Nat := 0
  controlTicket : ControlTicket := .held
  deriving DecidableEq

/-- `_CapabilityEntry` of a permit. -/
structure PermitEntry where
  leaseId : Nat
  amount : Nat
  controlTicket : ControlTicket
  resourceReleased : Bool := false
  deriving DecidableEq

/-- `_weight_buckets`, `_weight_order` and `_operation_weights`: which operations can go
on with which weight, the weights in the order of their turns. -/
structure WeightIndex (Op : Type) where
  weightBuckets : Nat → List Op := fun _ => []
  weightOrder : List Nat := []
  operationWeights : Op → Option Nat := fun _ => none

/-- A grant: whose, and what was in use and the capacity right after it. -/
structure IoGrant where
  waiter : Nat
  inUse : Nat
  capacity : Nat

/-- `RemoteIoPermitGovernor`.  `pressureScale` is `int(requested * _pressure_scale)`,
and `grants` are all grants so far. -/
structure RemoteIoPermitGovernor (Op : Type) where
  baseCapacity : Nat
  requestedCapacity : Nat
  pressureScale : Nat → Nat := id
  pressureCapacity : Nat
  capacity : Nat
  maxWaiters : Nat
  maxCapacityRegistrations : Nat
  registrations : List (Nat × Nat) := []
  nextRegistrationToken : Nat := 0
  inUse : Nat := 0
  waitingCount : Nat := 0
  nextWaiter : Nat := 0
  waiting : List (IoWaiter Op) := []
  granted : List (IoWaiter Op) := []
  closed : List (IoWaiter Op) := []
  permitOwners : List PermitEntry := []
  capabilitySequence : Nat := 0
  operationOrder : List Op := []
  index : WeightIndex Op := {}
  bucketCapacity : Nat
  schedulingDirty : Bool := false
  admissionClosed : Bool := false
  grants : List IoGrant := []

variable {Op : Type} [DecidableEq Op]

/-- `d[key] = None` for an ordered dictionary. -/
def insertLast {α : Type} [DecidableEq α] (keys : List α) (key : α) : List α :=
  if key ∈ keys then keys else keys ++ [key]

namespace WeightIndex

/-- `_remove_operation_weight_locked`. -/
def removeOperationWeight (ix : WeightIndex Op) (op : Op) : WeightIndex Op :=
  match ix.operationWeights op with
  | none => ix
  | some weight =>
    let bucket := (ix.weightBuckets weight).erase op
    { weightBuckets := update ix.weightBuckets weight bucket
      weightOrder := if ix.weightBuckets weight ≠ [] ∧ bucket = [] then ix.weightOrder.erase weight
        else ix.weightOrder
      operationWeights := update ix.operationWeights op none }

/-- The operation goes to the end of the bucket of its weight. -/
def publish (ix : WeightIndex Op) (op : Op) (weight : Nat) : WeightIndex Op where
  weightBuckets := update ix.weightBuckets weight (insertLast (ix.weightBuckets weight) op)
  weightOrder := if ix.weightBuckets weight = [] then insertLast ix.weightOrder weight
    else ix.weightOrder
  operationWeights := update ix.operationWeights op (some weight)

/-- A weight that still has operations waits for its next turn. -/
def requeue (ix : WeightIndex Op) (weight : Nat) : WeightIndex Op :=
  if ix.weightBuckets weight = [] then ix
  else { ix with weightOrder := insertLast ix.weightOrder weight }

/-- The test of `_recover_unindexed_operation_locked`. -/
def isIndexed (ix : WeightIndex Op) (op : Op) : Bool :=
  match ix.operationWeights op with
  | none => false
  | some weight => (ix.weightBuckets weight).contains op && ix.weightOrder.contains weight

end WeightIndex

/-- What the environment does in one round of `_grant_ready_locked`: whether the ticket
of the waiter is retired, and what an internal failure leaves of the index, before the
waiter has left its queue or after it. -/
structure GrantRound (Op : Type) where
  retires : Bool := true
  stops : Option (WeightIndex Op) := none
  damages : Option (WeightIndex Op) := none

/-- The rounds of `_grant_ready_locked`; `none` if its batch cannot be allocated. -/
abbrev GrantRounds (Op : Type) := Option (Nat → GrantRound Op)

namespace RemoteIoPermitGovernor

/-- The governor after `__init__`. -/
def initial (Op : Type) (capacity maxWaiters maxCapacityRegistrations : Nat) :
    RemoteIoPermitGovernor Op where
  baseCapacity := capacity
  requestedCapacity := capacity
  pressureCapacity := capacity
  capacity := capacity
  bucketCapacity := capacity
  maxWaiters := maxWaiters
  maxCapacityRegistrations := maxCapacityRegistrations

/-! ### Capacity -/

/-- `_apply_cached_capacity_locked`. -/
def applyCachedCapacity (s : RemoteIoPermitGovernor Op) : RemoteIoPermitGovernor Op :=
  let capacity := if s.pressureCapacity < s.inUse then s.inUse else s.pressureCapacity
  { s with capacity, schedulingDirty := s.schedulingDirty || capacity != s.capacity }

/-- `_recompute_capacity_locked`. -/
def recomputeCapacity (s : RemoteIoPermitGovernor Op) : RemoteIoPermitGovernor Op :=
  applyCachedCapacity { s with pressureCapacity := max 1 (s.pressureScale s.requestedCapacity) }

/-- `_requested_capacity_from_registrations_locked`. -/
def requestedCapacityFromRegistrations (s : RemoteIoPermitGovernor Op) : Nat :=
  s.registrations.foldl (fun requested r => max requested r.2) s.baseCapacity

/-- `_repair_scheduler_locked`. -/
def repairScheduler (s : RemoteIoPermitGovernor Op) : RemoteIoPermitGovernor Op :=
  if s.schedulingDirty || s.bucketCapacity != s.capacity then
    { s with bucketCapacity := s.capacity, schedulingDirty := false }
  else s

/-! ### The index of weights -/

/-- `_effective_weight`. -/
def effectiveWeight (s : RemoteIoPermitGovernor Op) (w : IoWaiter Op) : Nat :=
  max 1 (min w.requestedWeight s.capacity)

/-- `_operation_waiters`: the queue of an operation. -/
def operationWaiters (s : RemoteIoPermitGovernor Op) (op : Op) : List (IoWaiter Op) :=
  s.waiting.filter fun w => w.operationId = op

/-- `_operation_bucket_weight_locked`. -/
def operationBucketWeight (s : RemoteIoPermitGovernor Op) : List (IoWaiter Op) → Option Nat
  | [] => none
  | head :: rest =>
    if maxHeadBypasses ≤ head.bypasses then some (s.effectiveWeight head)
    else some ((rest.take maxLocalBypassScan).foldl (fun weight w =>
      min weight (s.effectiveWeight w))
      (s.effectiveWeight head))

/-- `_refresh_operation_weight_locked`. -/
def refreshOperationWeight (s : RemoteIoPermitGovernor Op) (op : Op) : RemoteIoPermitGovernor Op :=
  let ix := s.index.removeOperationWeight op
  { s with index :=
      match s.operationBucketWeight (s.operationWaiters op) with
      | none => ix
      | some weight => ix.publish op weight }

/-- `_operation_candidate_locked`: the waiter, and whether it passes the head. -/
def operationCandidate (s : RemoteIoPermitGovernor Op) (available : Nat) :
    List (IoWaiter Op) → Option (IoWaiter Op × Bool)
  | [] => none
  | head :: rest =>
    if s.effectiveWeight head ≤ available then some (head, false)
    else if maxHeadBypasses ≤ head.bypasses then none
    else ((rest.take maxLocalBypassScan).find? fun w =>
      s.effectiveWeight w ≤ available).map (·, true)

/-- `_recover_unindexed_operation_locked`. -/
def recoverUnindexedOperation (s : RemoteIoPermitGovernor Op) :
    Option (RemoteIoPermitGovernor Op) :=
  (s.operationOrder.find? fun op => s.operationWaiters op ≠ [] ∧ ¬ s.index.isIndexed op).map
    s.refreshOperationWeight

/-! ### Grants -/

/-- `_retire_waiter_control`. -/
def retireWaiterControl (retires : Bool) (w : IoWaiter Op) : IoWaiter Op :=
  { w with controlTicket := w.controlTicket.release retires }

/-- The queues after a waiter has left; a head that it has passed is charged for that. -/
def queuesWithout (s : RemoteIoPermitGovernor Op) (waiter : IoWaiter Op) (bypassedHead : Bool) :
    List (IoWaiter Op) :=
  let head := (s.operationWaiters waiter.operationId).headD waiter
  (s.waiting.erase waiter).map fun w =>
    if bypassedHead ∧ w = head then { w with bypasses := w.bypasses + 1 } else w

/-- The end of `_take_candidate_locked`: a waiter leaves the queue of its operation. -/
def retireFromQueue (s : RemoteIoPermitGovernor Op) (round : GrantRound Op) (weight : Nat)
    (waiter : IoWaiter Op) (bypassedHead : Bool) : RemoteIoPermitGovernor Op × IoWaiter Op :=
  let op := waiter.operationId
  let waiting := s.queuesWithout waiter bypassedHead
  let order := s.operationOrder.erase op
  let s' := refreshOperationWeight
    { s with
      waiting
      waitingCount := s.waitingCount - 1
      operationOrder := if waiting.all fun w => w.operationId ≠ op then order else order ++ [op]
      index := { s.index with operationWeights := update s.index.operationWeights op none } } op
  let s' := { s' with index := s'.index.requeue weight }
  (match round.damages with
    | none => s'
    | some index => { s' with index, schedulingDirty := true },
    retireWaiterControl round.retires { waiter with grantedWeight := s.effectiveWeight waiter })

/-- `_take_candidate_locked`, with the number of weights still to be looked at. -/
def takeCandidate (available : Nat) (round : GrantRound Op) :
    (weights : Nat) → RemoteIoPermitGovernor Op → RemoteIoPermitGovernor Op × Option (IoWaiter Op)
  | 0, s => (s, none)
  | weights + 1, s =>
    match s.index.weightOrder with
    | [] => (s, none)
    | weight :: order =>
      match s.index.weightBuckets weight with
      | [] => takeCandidate available round weights
        { s with index := { s.index with weightOrder := order } }
      | op :: bucket =>
        let ix := { s.index with
          weightOrder := order, weightBuckets := update s.index.weightBuckets weight bucket }
        match s.operationBucketWeight (s.operationWaiters op) with
        | none =>
          let ix := { ix with operationWeights := update ix.operationWeights op none }
          takeCandidate available round weights { s with index := ix.requeue weight }
        | some current =>
          -- an operation whose hint is out of date goes to the bucket of its weight
          if current ≠ weight then
            takeCandidate available round weights
              { s with index := (ix.publish op current).requeue weight }
          else
            match if available < weight then none
              else s.operationCandidate available (s.operationWaiters op) with
            | none =>
              let ix := { ix with
                weightBuckets := update ix.weightBuckets weight (insertLast bucket op) }
              takeCandidate available round weights { s with index := ix.requeue weight }
            | some (waiter, bypassedHead) =>
              if s.waitingCount = 0 then ({ s with index := ix }, none)
              else
                let r := retireFromQueue { s with index := ix } round weight waiter bypassedHead
                (r.1, some r.2)

/-- A waiter that has left its queue is granted. -/
def grant (s : RemoteIoPermitGovernor Op) (waiter : IoWaiter Op) : RemoteIoPermitGovernor Op :=
  let inUse := s.inUse + waiter.grantedWeight
  { s with
    granted := s.granted ++ [waiter]
    inUse
    grants := s.grants ++ [⟨waiter.id, inUse, s.capacity⟩] }

/-- The loop of `_grant_ready_locked`, for at most `batch` grants. -/
def grantLoop : (fuel batch : Nat) → (Nat → GrantRound Op) → RemoteIoPermitGovernor Op →
    RemoteIoPermitGovernor Op
  | 0, _, _, s => s
  | fuel + 1, batch, rounds, s =>
    if s.waitingCount = 0 ∨ batch = 0 then s
    else
      let s := s.applyCachedCapacity
      if s.capacity ≤ s.inUse then s
      else
        match (rounds 0).stops with
        | some index => { s with index, schedulingDirty := true }
        | none =>
          match s.takeCandidate (s.capacity - s.inUse) (rounds 0) s.index.weightOrder.length with
          | (s, some waiter) => grantLoop fuel (batch - 1) (rounds <| · + 1) (s.grant waiter)
          | (s, none) =>
            match s.recoverUnindexedOperation with
            | some s => grantLoop fuel batch (rounds <| · + 1) s
            | none => s

/-- `_grant_ready_locked`.  A round grants or recovers an operation.  If every bucket in use has
its turn in `weightOrder`, an operation that is recovered is indexed, so that the fuel is enough.
After a failure that leaves a bucket without its turn the code may recover the same operation for
ever, where the model gives up. -/
def grantReady (s : RemoteIoPermitGovernor Op) (rounds : Nat → GrantRound Op) :
    RemoteIoPermitGovernor Op :=
  let s := s.repairScheduler
  let batch := min s.waitingCount (s.capacity - s.inUse)
  s.grantLoop ((batch + 1) * (s.operationOrder.length + 1)) batch rounds

/-- `_post_commit_reschedule_locked`. -/
def postCommitReschedule (s : RemoteIoPermitGovernor Op) (rounds : GrantRounds Op) :
    RemoteIoPermitGovernor Op :=
  let s := s.applyCachedCapacity.repairScheduler
  match rounds with
  | none => { s with schedulingDirty := true }
  | some rounds => s.grantReady rounds

/-! ### Waiters and permits -/

/-- A waiter is done with, and its ticket is retired if the control plane commits. -/
def close (s : RemoteIoPermitGovernor Op) (retires : Bool) (w : IoWaiter Op) :
    RemoteIoPermitGovernor Op :=
  { s with closed := s.closed ++ [retireWaiterControl retires w] }

/-- `_enqueue_waiter_locked`, for a new waiter. -/
def enqueueWaiter (s : RemoteIoPermitGovernor Op) (op : Op) (weight : Nat) :
    RemoteIoPermitGovernor Op :=
  refreshOperationWeight
    { s with
      nextWaiter := s.nextWaiter + 1
      waiting := s.waiting ++ [{ id := s.nextWaiter, operationId := op, requestedWeight := weight }]
      operationOrder := insertLast s.operationOrder op
      waitingCount := s.waitingCount + 1 } op

/-- `acquire` and `acquire_sync` up to the wait.  `enqueueFails` is the index after a
failed enqueue, which is rolled back.  A rejection by `acquire_sync` also reschedules, which is
the `poll` of another waiter here. -/
def acquire (s : RemoteIoPermitGovernor Op) (op : Op) (weight : Nat) (scale : Nat → Nat)
    (before after : GrantRounds Op) (enqueueFails : Option (WeightIndex Op)) (retires : Bool) :
    RemoteIoPermitGovernor Op :=
  if weight = 0 then s
  else
    let w : IoWaiter Op := { id := s.nextWaiter, operationId := op, requestedWeight := weight }
    if s.admissionClosed then s.close retires w
    else
      let s := recomputeCapacity { s with pressureScale := scale }
      match before with
      | none => s.close retires w
      | some rounds =>
        let s := s.grantReady rounds
        if s.maxWaiters ≤ s.waitingCount then s.close retires w
        else
          match enqueueFails with
          | some index => ({ s with index, schedulingDirty := true }).close retires w
          | none =>
            match after with
            | none => { s.enqueueWaiter op weight with schedulingDirty := true }
            | some rounds => (s.enqueueWaiter op weight).grantReady rounds

/-- `_return_in_use_locked`. -/
def returnInUse (s : RemoteIoPermitGovernor Op) (amount : Nat) :
    RemoteIoPermitGovernor Op × Bool :=
  if s.inUse < amount then (s, false) else ({ s with inUse := s.inUse - amount }, true)

/-- `_reclaim_granted_waiter_locked`. -/
def reclaimGrantedWaiter (s : RemoteIoPermitGovernor Op) (w : IoWaiter Op) (retires : Bool)
    (rounds : GrantRounds Op) : RemoteIoPermitGovernor Op :=
  let s := { s with granted := s.granted.erase w }
  match s.returnInUse w.grantedWeight with
  | (s, false) => { s with closed := s.closed ++ [w] }
  | (s, true) => (s.applyCachedCapacity.close retires w).postCommitReschedule rounds

/-- `_deliver_waiter_callback`; the delivery fails if the caller is gone or if the permit
cannot be made. -/
def deliverWaiter (s : RemoteIoPermitGovernor Op) (w : IoWaiter Op) (fails retires : Bool)
    (rounds : GrantRounds Op) : RemoteIoPermitGovernor Op :=
  if fails then s.reclaimGrantedWaiter w retires rounds
  else
    { s with
      granted := s.granted.erase w
      permitOwners := s.permitOwners ++
        [⟨s.capabilitySequence + 1, w.grantedWeight, w.controlTicket, false⟩]
      capabilitySequence := s.capabilitySequence + 1
      closed := s.closed ++ [{ w with controlTicket := .gone }] }

/-- `_remove_waiter_locked`, for a waiter that is cancelled in its queue. -/
def removeWaiter (s : RemoteIoPermitGovernor Op) (w : IoWaiter Op) (retires : Bool)
    (damages : Option (WeightIndex Op)) : RemoteIoPermitGovernor Op :=
  let s := close
    { s with waiting := s.waiting.erase w, waitingCount := s.waitingCount - 1 } retires w
  match damages with
  | some index => { s with index, schedulingDirty := true }
  | none =>
    let s := s.refreshOperationWeight w.operationId
    if s.operationWaiters w.operationId = [] then
      { s with operationOrder := s.operationOrder.erase w.operationId }
    else s

/-- The first section of `_release_permit`. -/
def releaseResource (s : RemoteIoPermitGovernor Op) (p : PermitEntry) (rounds : GrantRounds Op) :
    RemoteIoPermitGovernor Op :=
  if p.resourceReleased ∨ s.inUse < p.amount then s
  else
    postCommitReschedule
      { s with
        inUse := s.inUse - p.amount
        permitOwners := s.permitOwners.erase p ++ [{ p with resourceReleased := true }] } rounds

/-- The rest of `_release_permit`: the ticket, and the entry if the ticket is gone. -/
def retirePermit (s : RemoteIoPermitGovernor Op) (p : PermitEntry) (retires : Bool) :
    RemoteIoPermitGovernor Op :=
  if p.resourceReleased then
    match p.controlTicket.release retires with
    | .gone => { s with permitOwners := s.permitOwners.erase p }
    | ticket =>
      { s with permitOwners := s.permitOwners.erase p ++ [{ p with controlTicket := ticket }] }
  else s

/-- A waiter after a drain. -/
def drainWaiter (reached : Nat → Bool) (w : IoWaiter Op) : IoWaiter Op :=
  { w with controlTicket := w.controlTicket.drain (reached w.id) }

/-- A drain of the control plane, which reaches some of the deferred tickets.  The ticket of a
queued waiter is never deferred. -/
def drainControl (s : RemoteIoPermitGovernor Op) (waiters permits : Nat → Bool) :
    RemoteIoPermitGovernor Op :=
  { s with
    granted := s.granted.map (drainWaiter waiters)
    closed := s.closed.map (drainWaiter waiters)
    permitOwners := s.permitOwners.map fun p =>
      { p with controlTicket := p.controlTicket.drain (permits p.leaseId) } }

/-! ### Capacity registrations -/

/-- `configure_capacity`. -/
def configureCapacity (s : RemoteIoPermitGovernor Op) (requested : Nat) (scale : Nat → Nat)
    (rounds : GrantRounds Op) : RemoteIoPermitGovernor Op :=
  if requested = 0 ∨ s.admissionClosed then s
  else
    let base := max s.baseCapacity requested
    let s := recomputeCapacity
      { s with
        pressureScale := scale
        baseCapacity := base
        requestedCapacity := max s.requestedCapacity base }
    match rounds with
    | none => s
    | some rounds => s.grantReady rounds

/-- `register_capacity`; with `none` it fails and is rolled back. -/
def registerCapacity (s : RemoteIoPermitGovernor Op) (requested : Nat) (scale : Nat → Nat)
    (rounds : GrantRounds Op) : RemoteIoPermitGovernor Op :=
  if requested = 0 ∨ s.admissionClosed then s
  else
    let s := { s with pressureScale := scale }
    if s.maxCapacityRegistrations ≤ s.registrations.length then s
    else
      match rounds with
      | none => recomputeCapacity
        { s with requestedCapacity := s.requestedCapacityFromRegistrations }
      | some rounds =>
        let token := s.nextRegistrationToken + 1
        (recomputeCapacity
          { s with
            registrations := s.registrations ++ [(token, requested)]
            nextRegistrationToken := token
            requestedCapacity := max s.requestedCapacity requested }).grantReady rounds

/-- The first section of `_release_capacity_registration`. -/
def releaseRegistration (s : RemoteIoPermitGovernor Op) (token : Nat) (rounds : GrantRounds Op) :
    RemoteIoPermitGovernor Op :=
  let s := { s with registrations := s.registrations.filter fun r => r.1 ≠ token }
  let requested := s.requestedCapacityFromRegistrations
  postCommitReschedule
    { s with
      requestedCapacity := requested
      pressureCapacity := max 1 (s.pressureScale requested) } rounds

end RemoteIoPermitGovernor

/-! ### Runs -/

/-- The locked sections, with what the environment does in them. -/
inductive IoEvent (Op : Type)
  | acquire (op : Op) (weight : Nat) (scale : Nat → Nat) (before after : GrantRounds Op)
      (enqueueFails : Option (WeightIndex Op)) (retires : Bool)
  | deliver (waiter : Nat) (fails retires : Bool) (rounds : GrantRounds Op)
  | cancel (waiter : Nat) (retires : Bool) (damages : Option (WeightIndex Op))
      (rounds : GrantRounds Op)
  | poll (waiter : Nat) (rounds : GrantRounds Op)
  | releaseResource (lease : Nat) (rounds : GrantRounds Op)
  | retirePermit (lease : Nat) (retires : Bool)
  | drain (waiters permits : Nat → Bool)
  | configure (requested : Nat) (scale : Nat → Nat) (rounds : GrantRounds Op)
  | register (requested : Nat) (scale : Nat → Nat) (rounds : GrantRounds Op)
  | releaseRegistration (token : Nat) (rounds : GrantRounds Op)
  | closeAdmission

namespace RemoteIoPermitGovernor

/-- One locked section.  A granted waiter is cancelled like one whose delivery fails (the
code differs where the capacity in use would become negative); a delivered one is left
to the release of its permit. -/
def step (s : RemoteIoPermitGovernor Op) : IoEvent Op → RemoteIoPermitGovernor Op
  | .acquire op weight scale before after enqueueFails retires =>
    s.acquire op weight scale before after enqueueFails retires
  | .deliver waiter fails retires rounds =>
    match s.granted.find? fun w => w.id = waiter with
    | none => s
    | some w => s.deliverWaiter w fails retires rounds
  | .cancel waiter retires damages rounds =>
    match s.waiting.find? fun w => w.id = waiter with
    | some w => (s.removeWaiter w retires damages).postCommitReschedule rounds
    | none =>
      match s.granted.find? fun w => w.id = waiter with
      | some w => s.reclaimGrantedWaiter w retires rounds
      | none => s
  | .poll waiter rounds =>
    if (s.waiting.any fun w => w.id = waiter) ∧ (s.schedulingDirty ∨ s.inUse < s.capacity) then
      s.postCommitReschedule rounds
    else s
  | .releaseResource lease rounds =>
    match s.permitOwners.find? fun p => p.leaseId = lease with
    | none => s
    | some p => s.releaseResource p rounds
  | .retirePermit lease retires =>
    match s.permitOwners.find? fun p => p.leaseId = lease with
    | none => s
    | some p => s.retirePermit p retires
  | .drain waiters permits => s.drainControl waiters permits
  | .configure requested scale rounds => s.configureCapacity requested scale rounds
  | .register requested scale rounds => s.registerCapacity requested scale rounds
  | .releaseRegistration token rounds =>
    if s.registrations.any fun r => r.1 = token then s.releaseRegistration token rounds else s
  | .closeAdmission => { s with admissionClosed := true }

/-- The state after a run. -/
def run (s : RemoteIoPermitGovernor Op) (events : List (IoEvent Op)) : RemoteIoPermitGovernor Op :=
  events.foldl step s

end RemoteIoPermitGovernor

end SchemaSanitizer
