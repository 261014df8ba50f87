/-
SchemaSanitizer/PermitFairness.lean

How long the oldest request of an operation can wait, in runs of the permit governor that
keep the capacity.

With one operation the head of the queue is passed at most `maxHeadBypasses` times, since
every passing is charged to it (`Passed`).  With two there is no bound: an operation that
queues a request goes to the end of its bucket, also with its older requests, so that
another operation can be first at every release (`Jam.churn`).
-/
import SchemaSanitizer.PermitScheduling

namespace SchemaSanitizer

open RemoteIoPermitGovernor List Function

variable {Op : Type} [DecidableEq Op]

/-- The grants of requests that were queued after `waiter`. -/
def laterGrants (waiter : Nat) (grants : List IoGrant) : Nat :=
  (grants.filter fun g => waiter < g.waiter).length

/-- A section without an internal failure that leaves the capacity as it is. -/
def IoEvent.Steady (capacity : Nat) (e : IoEvent Op) : Prop :=
  e.Faultless ∧
    match e with
    | .acquire _ _ scale _ _ _ _ => max 1 (scale capacity) = capacity
    | .configure _ _ _ | .register _ _ _ | .releaseRegistration _ _ => False
    | _ => True

omit [DecidableEq Op] in
theorem requestOf_steady {capacity : Nat} (hcapacity : 0 < capacity) (op : Op) (weight : Nat) :
    (requestOf op weight).Steady capacity :=
  ⟨requestOf_faultless op weight, Nat.max_eq_right hcapacity⟩

/-- **Fairness**: in every run of the sections `E` that in the end has released everything, at
most `bound` later requests are granted while the oldest request of an operation waits. -/
def PermitFair (capacity operations : Nat) (E : IoEvent (Fin operations) → Prop) (bound : Nat) :
    Prop :=
  ∀ (maxWaiters maxCapacityRegistrations : Nat)
    (before during after : List (IoEvent (Fin operations))),
    (∀ e ∈ before ++ during ++ after, E e) →
    let s := (initial (Fin operations) capacity maxWaiters maxCapacityRegistrations).run before
    ((s.run during).run after).inUse = 0 →
    ∀ op, ∀ w ∈ (s.operationWaiters op).head?, (∃ w' ∈ (s.run during).waiting, w'.id = w.id) →
      laterGrants w.id ((s.run during).grants.drop s.grants.length) ≤ bound

/-! ### One operation -/

/-- Waiters have different numbers, below the next one. -/
structure IoLedger.Numbered (l : IoLedger Op) : Prop where
  fresh : ∀ x ∈ l.waiting, x.id < l.nextWaiter
  distinct : (l.waiting.map IoWaiter.id).Nodup

/-- Every move keeps the waiters' numbers distinct and below the next one. -/
theorem LedgerMove.numbered {G C : Bool → Prop} {L : IoWaiter Op → Prop} {l l' : IoLedger Op}
    (h : l.Numbered) (hmove : LedgerMove G C L l l') : l'.Numbered := by
  have herase : ∀ w, (∀ x ∈ l.waiting.erase w, x.id < l.nextWaiter) ∧
      ((l.waiting.erase w).map IoWaiter.id).Nodup := fun w =>
    ⟨fun x hx => h.fresh x (mem_of_mem_erase hx),
      h.distinct.sublist (erase_sublist.map _)⟩
  cases hmove with
  | @grant w _ _ _ passed =>
    obtain ⟨hfresh, hdistinct⟩ := herase w
    refine ⟨?_, ?_⟩
    · rw [forall_mem_map]
      intro x hx
      have hid := hfresh x hx
      split <;> exact hid
    · have hid : (IoWaiter.id ∘ fun w : IoWaiter Op =>
          if passed w then { w with bypasses := w.bypasses + 1 } else w) = IoWaiter.id := by
        funext x
        show IoWaiter.id (ite _ _ _) = _
        split <;> rfl
      rwa [map_map, hid]
  | @enqueue w _ hid =>
    refine ⟨?_, ?_⟩
    · rw [forall_mem_append, forall_mem_singleton]
      exact ⟨fun x hx => Nat.lt_succ_of_lt (h.fresh x hx), hid ▸ Nat.lt_succ_self _⟩
    · rw [map_append, map_singleton, ← concat_eq_append]
      refine h.distinct.concat fun hmem => ?_
      obtain ⟨x, hx, heq⟩ := mem_map.mp hmem
      exact absurd (h.fresh x hx) (by omega)
  | @remove w => exact ⟨(herase w).1, (herase w).2⟩
  | _ => exact ⟨h.fresh, h.distinct⟩

/-- A waiter that is still in the queue is its head, and has been charged for every later
grant. -/
structure IoLedger.Passed (waiter since : Nat) (l : IoLedger Op) : Prop where
  numbered : l.Numbered
  known : waiter < l.nextWaiter
  logged : since ≤ l.grants.length
  charged : ∀ x ∈ l.waiting, x.id = waiter → l.waiting.head? = some x ∧
    laterGrants waiter (l.grants.drop since) ≤ x.bypasses ∧
    (laterGrants waiter (l.grants.drop since) = 0 ∨ x.bypasses ≤ maxHeadBypasses)

theorem erase_head {l : List (IoWaiter Op)} {x w : IoWaiter Op} (h : (l.map IoWaiter.id).Nodup)
    (hhead : l.head? = some x) (hx : x ∈ l.erase w) : x ≠ w ∧ (l.erase w).head? = some x := by
  cases l with
  | nil => cases hx
  | cons y l =>
    obtain rfl : y = x := by simpa using hhead
    have hne : y ≠ w := by
      rintro rfl
      rw [erase_cons_head] at hx
      exact (nodup_cons.mp h).1 (mem_map_of_mem hx)
    rw [erase_cons_tail (by simpa using hne)]
    exact ⟨hne, rfl⟩

theorem laterGrants_append (waiter : Nat) (grants : List IoGrant) (g : IoGrant) :
    laterGrants waiter (grants ++ [g]) ≤ laterGrants waiter grants + 1 := by
  rw [laterGrants, filter_append, length_append]
  exact Nat.add_le_add_left (length_filter_le _ _) _

/-- With one operation, every move keeps the account of a waiter. -/
theorem LedgerMove.passed [Subsingleton Op] {G C : Bool → Prop} {L : IoWaiter Op → Prop}
    {l l' : IoLedger Op} {waiter since : Nat} (h : l.Passed waiter since)
    (hmove : LedgerMove G C L l l') : l'.Passed waiter since := by
  have hnumbered := hmove.numbered h.numbered
  cases hmove with
  | @grant w _ weight capacity passed _ hw hG hhead =>
    refine ⟨hnumbered, h.known, ?_, ?_⟩
    · exact h.logged.trans (by simp)
    rw [forall_mem_map]
    intro x hx hid
    have hid' : x.id = waiter := by
      rw [← hid]
      split <;> rfl
    obtain ⟨hfirst, hcharged, -⟩ := h.charged x (mem_of_mem_erase hx) hid'
    obtain ⟨hne, hfirst'⟩ := erase_head h.numbered.distinct hfirst hx
    have hone : (l.waiting.filter fun y => y.operationId = w.operationId) = l.waiting :=
      filter_eq_self.mpr fun y _ => decide_eq_true (Subsingleton.elim _ _)
    obtain ⟨hfew, hpassed⟩ := (hhead x (by rw [hone]; exact hfirst)).resolve_left hne
    rw [head?_map, hfirst', if_pos hpassed, drop_append_of_le_length h.logged]
    have hlater := laterGrants_append waiter (l.grants.drop since)
      ⟨w.id, l.inUse + weight, capacity⟩
    refine ⟨congrArg some (if_pos hpassed), ?_, .inr hfew⟩
    exact hlater.trans (Nat.succ_le_succ hcharged)
  | @enqueue w _ hid =>
    refine ⟨hnumbered, Nat.lt_succ_of_lt h.known, h.logged, ?_⟩
    rw [forall_mem_append, forall_mem_singleton]
    refine ⟨fun x hx hx' => ?_, fun hx => absurd h.known (by omega)⟩
    obtain ⟨hfirst, hrest⟩ := h.charged x hx hx'
    exact ⟨by rw [head?_append, hfirst]; rfl, hrest⟩
  | @remove w =>
    refine ⟨hnumbered, h.known, h.logged, fun x hx hid => ?_⟩
    obtain ⟨hfirst, hrest⟩ := h.charged x (mem_of_mem_erase hx) hid
    exact ⟨(erase_head h.numbered.distinct hfirst hx).2, hrest⟩
  | _ => exact { h with numbered := hnumbered }

/-- **One operation**: the head is passed at most `maxHeadBypasses` times, whatever goes wrong. -/
theorem fair_of_subsingleton {capacity operations : Nat} (E : IoEvent (Fin operations) → Prop)
    (h : operations ≤ 1) : PermitFair capacity operations E maxHeadBypasses := by
  intro maxWaiters maxCapacityRegistrations before during after _ s _ op w hw hwaits
  have hsub : Subsingleton (Fin operations) := Fin.subsingleton_iff_le_one.mpr h
  have hnumbered : s.ledger.Numbered :=
    run_invariant (fun _ _ => LedgerMove.numbered) (fun e _ => e.answer_true) ⟨nofun, nodup_nil⟩
  have hone : s.operationWaiters op = s.waiting :=
    filter_eq_self.mpr fun y _ => decide_eq_true (Subsingleton.elim _ _)
  rw [hone] at hw
  have hmem : w ∈ s.waiting := mem_of_mem_head? hw
  have hstart : s.ledger.Passed w.id s.grants.length := by
    refine ⟨hnumbered, hnumbered.fresh w hmem, le_rfl, fun x hx hid => ?_⟩
    obtain rfl : x = w := inj_on_of_nodup_map hnumbered.distinct hx hmem hid
    have hnone : laterGrants x.id (s.grants.drop s.grants.length) = 0 := by rw [drop_length]; rfl
    exact ⟨hw, hnone ▸ Nat.zero_le _, .inl hnone⟩
  have hpassed : (s.run during).ledger.Passed w.id s.grants.length :=
    run_invariant (fun _ _ => LedgerMove.passed) (fun e _ => e.answer_true) hstart
  obtain ⟨x, hx, hid⟩ := hwaits
  obtain ⟨-, hcharged, hbound⟩ := hpassed.charged x hx hid
  rcases hbound with hzero | hfew
  · exact hzero ▸ Nat.zero_le _
  · exact hcharged.trans hfew

/-! ### Two operations -/

namespace WeightIndex

variable {ix : WeightIndex Op} {weight : Nat} {bucket : List Op}

/-- All operations of the index have one weight, and these are their turns. -/
structure Ring (ix : WeightIndex Op) (weight : Nat) (turns : List Op) : Prop where
  order : ix.weightOrder = if turns = [] then [] else [weight]
  bucket : ix.weightBuckets weight = turns
  nodup : turns.Nodup
  weights : ∀ op, ix.operationWeights op = if op ∈ turns then some weight else none

/-- **An operation that is refreshed goes to the end of the ring.** -/
theorem Ring.refresh (h : ix.Ring weight bucket) (op : Op) :
    ((ix.removeOperationWeight op).publish op weight).Ring weight (bucket.erase op ++ [op]) := by
  have hnodup : (bucket.erase op ++ [op]).Nodup := by
    rw [← concat_eq_append]
    exact (h.nodup.erase op).concat h.nodup.not_mem_erase
  have hmem : ∀ op', op' ∈ bucket.erase op ++ [op] ↔ op' = op ∨ op' ∈ bucket := by
    intro op'
    rw [mem_append, mem_singleton, h.nodup.mem_erase_iff]
    tauto
  have hlast : insertLast (bucket.erase op) op = bucket.erase op ++ [op] :=
    if_neg h.nodup.not_mem_erase
  rw [WeightIndex.removeOperationWeight, h.weights]
  by_cases hop : op ∈ bucket
  · have hne : bucket ≠ [] := ne_nil_of_mem hop
    rw [if_pos hop]
    refine ⟨?_, ?_, hnodup, fun op' => ?_⟩
    · by_cases hempty : bucket.erase op = []
      · simp [WeightIndex.publish, h.bucket, h.order, hne, hempty, insertLast]
      · simp [WeightIndex.publish, h.bucket, h.order, hne, hempty]
    · simpa [WeightIndex.publish, h.bucket] using hlast
    · rcases eq_or_ne op' op with rfl | hne'
      · simp [WeightIndex.publish]
      · simp [WeightIndex.publish, hne', h.weights, hmem]
  · rw [if_neg hop]
    rw [erase_of_not_mem hop] at hlast hmem hnodup ⊢
    refine ⟨?_, ?_, hnodup, fun op' => ?_⟩
    · by_cases hempty : bucket = []
      · simp [WeightIndex.publish, h.bucket, h.order, hempty, insertLast]
      · simp [WeightIndex.publish, h.bucket, h.order, hempty]
    · simpa [WeightIndex.publish, h.bucket] using hlast
    · rcases eq_or_ne op' op with rfl | hne'
      · simp [WeightIndex.publish]
      · simp [WeightIndex.publish, hne', h.weights, hmem]

theorem Ring.pop {op : Op} (h : ix.Ring weight (op :: bucket)) :
    (WeightIndex.requeue
      { weightBuckets := update ix.weightBuckets weight bucket
        weightOrder := []
        operationWeights := update ix.operationWeights op none } weight).Ring weight bucket := by
  obtain ⟨hop, hnodup⟩ := nodup_cons.mp h.nodup
  have hweights : ∀ op', update ix.operationWeights op none op' =
      if op' ∈ bucket then some weight else none := by
    intro op'
    rcases eq_or_ne op' op with rfl | hne
    · rw [update_self, if_neg hop]
    · rw [update_of_ne hne, h.weights]
      simp [hne]
  rw [WeightIndex.requeue]
  dsimp only
  split <;> rename_i hempty <;> rw [update_self] at hempty
  · exact ⟨by rw [if_pos hempty], update_self .., hnodup, hweights⟩
  · exact ⟨by rw [if_neg hempty]; rfl, update_self .., hnodup, hweights⟩

end WeightIndex

namespace RemoteIoPermitGovernor

variable {s : RemoteIoPermitGovernor Op} {capacity lease : Nat} {l : IoLedger Op} {turns : List Op}

/-- A waiter for all of the capacity. -/
abbrev wholeWaiter (capacity id : Nat) (op : Op) : IoWaiter Op :=
  { id, operationId := op, requestedWeight := capacity }

/-- The governor has the ledger `l`, and everybody waits for all of the capacity. -/
structure Jam (s : RemoteIoPermitGovernor Op) (total : Nat) (l : IoLedger Op) (turns : List Op)
    (lease : Nat) : Prop where
  settled : s.Settled total
  requested : s.requestedCapacity = total
  ledger : s.ledger = l
  whole : ∀ w ∈ l.waiting, w.requestedWeight = total
  ring : s.index.Ring total turns
  lease : s.capabilitySequence = lease
  opened : s.admissionClosed = false
  room : 4 ≤ s.maxWaiters

theorem Jam.repairScheduler (h : s.Jam capacity l turns lease) :
    s.repairScheduler.Jam capacity l turns lease := by
  have hledger := s.ledger_repairScheduler.trans h.ledger
  have hsettled := h.settled.repairScheduler
  revert hledger hsettled
  rw [RemoteIoPermitGovernor.repairScheduler]
  split
  · exact fun hledger hsettled => { h with settled := hsettled, ledger := hledger }
  · exact fun _ _ => h

theorem Jam.idle (h : s.Jam capacity l turns lease)
    (hidle : min l.waitingCount (capacity - l.inUse) = 0)
    (rounds : Nat → GrantRound Op) : (s.grantReady rounds).Jam capacity l turns lease := by
  have hrepair := h.repairScheduler
  have hbatch : min s.repairScheduler.waitingCount
    (s.repairScheduler.capacity - s.repairScheduler.inUse) = 0 := by
    rw [hrepair.settled.capacity]
    rwa [← hrepair.ledger] at hidle
  rw [grantReady, hbatch, Nat.zero_add, Nat.one_mul, grantLoop, if_pos (.inr rfl)]
  exact hrepair

theorem foldl_min_const {α : Type} {f : α → Nat} {c : Nat} {l : List α} (h : ∀ x ∈ l, f x = c) :
    l.foldl (fun m x => min m (f x)) c = c := by
  induction l with
  | nil => rfl
  | cons x l ih =>
    rw [forall_mem_cons] at h
    rw [foldl_cons, h.1, Nat.min_self]
    exact ih h.2

omit [DecidableEq Op] in
theorem operationBucketWeight_whole (hcapacity : s.capacity = capacity) (hpos : 0 < capacity)
    {queue : List (IoWaiter Op)} (hqueue : ∀ w ∈ queue, w.requestedWeight = capacity)
    (hne : queue ≠ []) :
    s.operationBucketWeight queue = some capacity := by
  have hweight : ∀ w ∈ queue, s.effectiveWeight w = capacity := by
    intro w hw
    rw [effectiveWeight, hqueue w hw, hcapacity, Nat.min_self, Nat.max_eq_right hpos]
  cases queue with
  | nil => exact absurd rfl hne
  | cons head rest =>
    rw [forall_mem_cons] at hweight
    rw [operationBucketWeight, hweight.1, foldl_min_const fun w hw =>
      hweight.2 w (mem_of_mem_take hw),
      ite_self]

section

variable (h : s.Jam capacity l turns lease)

include h

theorem Jam.refresh (hpos : 0 < capacity) {waiting : List (IoWaiter Op)}
    (hwhole : ∀ w ∈ waiting, w.requestedWeight = capacity) {op : Op}
    (hop : ∃ w ∈ waiting, w.operationId = op) :
    (refreshOperationWeight { s with waiting } op).index.Ring capacity
    (turns.erase op ++ [op]) := by
  obtain ⟨w, hw, rfl⟩ := hop
  have hweight : operationBucketWeight { s with waiting }
    (waiting.filter fun x => x.operationId = w.operationId) =
      some capacity := by
    refine operationBucketWeight_whole h.settled.capacity hpos
      (fun x hx => hwhole x (mem_of_mem_filter hx)) ?_
    exact ne_nil_of_mem (mem_filter.mpr ⟨hw, decide_eq_true rfl⟩)
  rw [index_refreshOperationWeight, weightOf, operationWaiters, hweight]
  exact h.ring.refresh w.operationId

/-- **A request** is queued at the end of the ring; then waiters are granted. -/
theorem Jam.request (hpos : 0 < capacity) (hidle : min l.waitingCount (capacity - l.inUse) = 0)
    (hroom : l.waitingCount < 4) (op : Op) :
    ∃ s' : RemoteIoPermitGovernor Op,
      s.step (requestOf op capacity) = s'.grantReady (fun _ => {}) ∧ s'.Jam capacity
      { l with
        waiting := l.waiting ++ [wholeWaiter capacity l.nextWaiter op]
        waitingCount := l.waitingCount + 1
        nextWaiter := l.nextWaiter + 1 } (turns.erase op ++ [op]) lease := by
  have hrecompute : (recomputeCapacity { s with pressureScale := id }).Jam capacity l
    turns lease := by
    have hsettled : Settled
        { s with pressureScale := id, pressureCapacity := max 1 s.requestedCapacity }
        capacity := by
      refine { h.settled with pressure := ?_ }
      show max 1 s.requestedCapacity = capacity
      rw [h.requested, Nat.max_eq_right hpos]
    rw [recomputeCapacity]
    show Jam (applyCachedCapacity
      { s with pressureScale := id, pressureCapacity := max 1 s.requestedCapacity }) _ _ _ _
    rw [hsettled.applyCachedCapacity_eq]
    exact { h with settled := hsettled }
  have hready := hrecompute.idle hidle fun _ => {}
  have hstep : ∀ s', grantReady (recomputeCapacity { s with pressureScale := id })
    (fun _ => {}) = s' →
      ¬ s'.maxWaiters ≤ s'.waitingCount →
      s.step (requestOf op capacity) = (s'.enqueueWaiter op capacity).grantReady fun _ => {} := by
    rintro s' rfl hcount
    rw [requestOf, step, acquire, if_neg hpos.ne']
    dsimp only
    rw [if_neg (by simp [h.opened]), if_neg hcount]
  generalize grantReady (recomputeCapacity { s with pressureScale := id }) (fun _ => {}) =
    s' at hready hstep
  obtain ⟨hsettled, hrequested, rfl, hwhole, -, hlease, hopened, hmax⟩ := id hready
  refine ⟨s'.enqueueWaiter op capacity,
    hstep s' rfl (Nat.not_le.mpr (Nat.lt_of_lt_of_le hroom hmax)), ?_⟩
  have hall : ∀ w ∈ s'.waiting ++ [wholeWaiter capacity s'.nextWaiter op],
      w.requestedWeight = capacity := by
    rw [forall_mem_append, forall_mem_singleton]
    exact ⟨hwhole, rfl⟩
  exact ⟨hsettled.enqueueWaiter op capacity, hrequested, rfl, hall,
    hready.refresh hpos hall ⟨_, mem_append_right _ mem_cons_self, rfl⟩, hlease, hopened, hmax⟩

/-- **A cancelled request** sends its operation to the end of the ring as well. -/
theorem Jam.cancel (hpos : 0 < capacity) (hfull : l.inUse = capacity) {w : IoWaiter Op}
    (hfind : (l.waiting.find? fun x => x.id = w.id) = some w)
    (hrest : ∃ x ∈ l.waiting.erase w, x.operationId = w.operationId) :
    (s.step (.cancel w.id true none (some fun _ => {}))).Jam capacity
      { l with
        waiting := l.waiting.erase w
        waitingCount := l.waitingCount - 1
        closed := l.closed ++ [retireWaiterControl true w] }
      (turns.erase w.operationId ++ [w.operationId]) lease := by
  obtain ⟨hsettled, hrequested, rfl, hwhole, -, hlease, hopened, hmax⟩ := id h
  have hw : w ∈ s.waiting := mem_of_find?_eq_some hfind
  have hall : ∀ x ∈ s.waiting.erase w, x.requestedWeight = capacity :=
    fun x hx => hwhole x (mem_of_mem_erase hx)
  have hkeeps : (s.waiting.erase w).filter (fun x => x.operationId = w.operationId) ≠ [] := by
    obtain ⟨x, hx, hop⟩ := hrest
    exact ne_nil_of_mem (mem_filter.mpr ⟨hx, decide_eq_true hop⟩)
  have hremove : (s.removeWaiter w true none).Jam capacity
      { s.ledger with
        waiting := s.waiting.erase w
        waitingCount := s.waitingCount - 1
        closed := s.closed ++ [retireWaiterControl true w] }
      (turns.erase w.operationId ++ [w.operationId]) lease := by
    have hsettled' := hsettled.removeWaiter hw true
    have hring := h.refresh hpos hall hrest
    rw [removeWaiter] at hsettled' ⊢
    rw [if_neg (by exact hkeeps)] at hsettled' ⊢
    exact ⟨hsettled', hrequested, rfl, hall, hring, hlease, hopened, hmax⟩
  rw [step]
  rw [show (s.waiting.find? fun x => x.id = w.id) = some w from hfind]
  show (postCommitReschedule (s.removeWaiter w true none) _).Jam _ _ _ _
  rw [postCommitReschedule, hremove.settled.applyCachedCapacity_eq]
  refine hremove.repairScheduler.idle ?_ _
  show min (s.waitingCount - 1) (capacity - s.inUse) = 0
  rw [show s.inUse = capacity from hfull, Nat.sub_self, Nat.min_zero]

/-- **A release** frees everything; then waiters are granted. -/
theorem Jam.release (hfull : l.inUse = capacity) {p : PermitEntry} (hpermits : l.permitOwners = [p])
    (hamount : p.amount = capacity) (hheld : p.resourceReleased = false) :
    ∃ s' : RemoteIoPermitGovernor Op,
      s.step (.releaseResource p.leaseId (some fun _ => {})) = s'.grantReady (fun _ => {}) ∧
      s'.Jam capacity
        { l with inUse := 0, permitOwners := [{ p with resourceReleased := true }] }
        turns lease := by
  obtain ⟨hsettled, hrequested, rfl, hwhole, hring, hlease, hopened, hmax⟩ := id h
  have hpermits : s.permitOwners = [p] := hpermits
  have hfull : s.inUse = p.amount := hfull.trans hamount.symm
  have hfree : Settled
      { s with inUse := 0, permitOwners := [{ p with resourceReleased := true }] } capacity :=
    { hsettled with used := Nat.zero_le _ }
  have hjam : Jam { s with inUse := 0, permitOwners := [{ p with resourceReleased := true }] }
      capacity _ turns lease := ⟨hfree, hrequested, rfl, hwhole, hring, hlease, hopened, hmax⟩
  refine ⟨_, ?_, hjam.repairScheduler⟩
  rw [step, hpermits, find?_singleton, decide_eq_true rfl]
  show s.releaseResource p _ = _
  rw [releaseResource, if_neg (by simp [hheld, hfull]), hpermits, hfull, Nat.sub_self,
    erase_cons_head,
    nil_append, postCommitReschedule, hfree.applyCachedCapacity_eq]

end

variable {w : IoWaiter Op} {grants : List IoGrant} {a b : Op}

theorem grantLoop_full (h : s.Settled capacity) (hfull : s.inUse = capacity) (fuel batch : Nat)
    (rounds : Nat → GrantRound Op) : s.grantLoop fuel batch rounds = s := by
  cases fuel with
  | zero => rfl
  | succ fuel =>
    rw [grantLoop]
    split
    · rfl
    rw [h.applyCachedCapacity_eq]
    exact if_pos (h.capacity.trans hfull.symm).le

theorem refreshOperationWeight_gone {op : Op} (hindex : s.index.operationWeights op = none)
    (hqueue : s.operationWaiters op = []) : (s.refreshOperationWeight op).index = s.index := by
  rw [refreshOperationWeight, hqueue, WeightIndex.removeOperationWeight, hindex]
  rfl

/-- What the ledger becomes when `w` is granted everything. -/
def grantedWhole (l : IoLedger Op) (capacity : Nat) (w : IoWaiter Op) : IoLedger Op :=
  { l with
    waiting := l.waiting.erase w
    waitingCount := l.waitingCount - 1
    granted := l.granted ++ [{ w with grantedWeight := capacity, controlTicket := .gone }]
    inUse := capacity
    grants := l.grants ++ [⟨w.id, capacity, capacity⟩] }

/-- In a jam the operation whose turn it is gets all the capacity. -/
theorem Jam.takeCandidate {w : IoWaiter Op} (h : s.Jam capacity l (w.operationId :: turns) lease)
    (hpos : 0 < capacity) (hfree : l.inUse = 0)
    (hqueue : (l.waiting.filter fun x => x.operationId = w.operationId) = [w]) :
    ∃ r : RemoteIoPermitGovernor Op × IoWaiter Op,
      s.takeCandidate (s.capacity - s.inUse) {} s.index.weightOrder.length = r.map id some ∧
      (r.1.grant r.2).Jam capacity (grantedWhole l capacity w) turns lease := by
  obtain ⟨hsettled, hrequested, rfl, hwhole, hring, hlease, hopened, hmax⟩ := h
  have hqueue : s.operationWaiters w.operationId = [w] := hqueue
  have hfree : s.inUse = 0 := hfree
  have hw : w ∈ s.waiting := by
    have hmem : w ∈ s.operationWaiters w.operationId := by rw [hqueue]; exact mem_cons_self
    exact mem_of_mem_filter hmem
  have hweight : s.effectiveWeight w = capacity := by
    rw [effectiveWeight, hwhole w hw, hsettled.capacity, Nat.min_self, Nat.max_eq_right hpos]
  have hcount : s.waitingCount ≠ 0 := by
    rw [hsettled.counted]
    exact (length_pos_of_mem hw).ne'
  have horder : s.index.weightOrder = [capacity] := hring.order
  have hfound : s.operationCandidate (s.capacity - s.inUse) (s.operationWaiters w.operationId) =
    some (w, false) := by
    rw [hqueue, operationCandidate, if_pos]
    rw [hweight, hsettled.capacity, hfree, Nat.sub_zero]
  have hplain : ({} : GrantRound Op).damages = none := rfl
  obtain ⟨hgranted, -⟩ := hsettled.grant hfound
    (exact_retireFromQueue hsettled.index horder hring.bucket hplain false)
  have hqueues : s.queuesWithout w false = s.waiting.erase w := by simp [queuesWithout]
  have hgone : (s.queuesWithout w false).filter (fun x => x.operationId = w.operationId) = [] := by
    rw [hqueues, ← erase_filter, show s.waiting.filter _ = [w] from hqueue, erase_cons_head]
  refine ⟨_, ?_, hgranted, hrequested, ?_, fun x hx =>
    hwhole x (mem_of_mem_erase hx), ?_, hlease, hopened, hmax⟩
  · -- one round: the only bucket fits, and its first operation has the only waiter
    rw [horder, length_singleton, RemoteIoPermitGovernor.takeCandidate, horder]
    dsimp only
    rw [hring.bucket]
    dsimp only
    rw [hqueue, operationBucketWeight_whole hsettled.capacity hpos
      (forall_mem_singleton.mpr (hwhole w hw)) (cons_ne_nil _ _)]
    dsimp only
    rw [← hqueue, hfound, if_neg (not_not.mpr rfl), hsettled.capacity, hfree, Nat.sub_zero,
      if_neg (Nat.lt_irrefl _)]
    dsimp only
    rw [if_neg hcount]
    rfl
  · show IoLedger.mk (s.inUse + s.effectiveWeight w) (s.waitingCount - 1) s.nextWaiter
      (s.queuesWithout w false)
      (s.granted ++ [{ w with
        grantedWeight := s.effectiveWeight w, controlTicket := w.controlTicket.release true }])
      s.closed s.permitOwners (s.grants ++ [⟨w.id, s.inUse + s.effectiveWeight w, s.capacity⟩]) = _
    rw [hweight, hfree, Nat.zero_add, hqueues, hsettled.capacity, w.controlTicket.release_true]
    rfl
  · show (WeightIndex.requeue (refreshOperationWeight _ w.operationId).index capacity).Ring _ _
    rw [refreshOperationWeight_gone]
    · exact hring.pop
    · exact update_self ..
    · exact hgone

/-- One grant of a jam takes one turn. -/
theorem Jam.grant {w : IoWaiter Op} (h : s.Jam capacity l (w.operationId :: turns) lease)
    (hpos : 0 < capacity) (hfree : l.inUse = 0)
    (hqueue : (l.waiting.filter fun x => x.operationId = w.operationId) = [w]) :
    (s.grantReady fun _ => {}).Jam capacity (grantedWhole l capacity w) turns lease := by
  have hjam := h.repairScheduler
  rw [grantReady]
  generalize s.repairScheduler = s at hjam
  obtain ⟨r, htake, hnext⟩ := hjam.takeCandidate hpos hfree hqueue
  have hused : s.inUse = 0 := (congrArg IoLedger.inUse hjam.ledger).trans hfree
  have hfull : (r.1.grant r.2).inUse = capacity := congrArg IoLedger.inUse hnext.ledger
  have hcount : s.waitingCount ≠ 0 := by
    have hmem : w ∈ l.waiting.filter fun x => x.operationId = w.operationId := by
      rw [hqueue]
      exact mem_cons_self
    rw [hjam.settled.counted, show s.waiting = l.waiting from congrArg IoLedger.waiting hjam.ledger]
    exact (length_pos_of_mem (mem_of_mem_filter hmem)).ne'
  obtain ⟨fuel, hfuel⟩ := Nat.exists_eq_succ_of_ne_zero (Nat.mul_ne_zero
    (Nat.succ_ne_zero (min s.waitingCount (s.capacity - s.inUse)))
      (Nat.succ_ne_zero s.operationOrder.length))
  rw [hfuel, grantLoop, if_neg (by rw [hjam.settled.capacity, hused]; omega),
    hjam.settled.applyCachedCapacity_eq]
  dsimp only
  rw [if_neg (by rw [hjam.settled.capacity, hused]; omega), htake]
  show (grantLoop fuel _ _ (r.1.grant r.2)).Jam _ _ _ _
  rw [grantLoop_full hnext.settled hfull]
  exact hnext

theorem Jam.deliver (h : s.Jam capacity l turns lease) {w : IoWaiter Op}
    (hgranted : l.granted = [w]) :
    (s.step (.deliver w.id false true (some fun _ => {}))).Jam capacity
      { l with
        granted := []
        permitOwners := l.permitOwners ++ [⟨lease + 1, w.grantedWeight, w.controlTicket, false⟩]
        closed := l.closed ++ [{ w with controlTicket := .gone }] } turns (lease + 1) := by
  obtain ⟨hsettled, hrequested, rfl, hwhole, hring, rfl, hopened, hmax⟩ := h
  have hgranted : s.granted = [w] := hgranted
  rw [step, hgranted, find?_singleton, decide_eq_true rfl]
  show (s.deliverWaiter w false true _).Jam _ _ _ _
  rw [deliverWaiter, if_neg Bool.false_ne_true, hgranted, erase_cons_head]
  exact ⟨{ hsettled with }, hrequested, rfl, hwhole, hring, rfl, hopened, hmax⟩

theorem Jam.retire (h : s.Jam capacity l turns lease) {p : PermitEntry}
    (hpermits : l.permitOwners = [p])
    (hreleased : p.resourceReleased = true) :
    (s.step (.retirePermit p.leaseId true)).Jam capacity
    { l with permitOwners := [] } turns lease := by
  obtain ⟨hsettled, hrequested, rfl, hwhole, hring, rfl, hopened, hmax⟩ := h
  have hpermits : s.permitOwners = [p] := hpermits
  rw [step, hpermits, find?_singleton, decide_eq_true rfl]
  show (s.retirePermit p true).Jam _ _ _ _
  rw [retirePermit, if_pos hreleased, p.controlTicket.release_true, hpermits, erase_cons_head]
  exact ⟨{ hsettled with }, hrequested, rfl, hwhole, hring, rfl, hopened, hmax⟩

/-- `w` waits for everything, and another permit has it. -/
def Blocked (s : RemoteIoPermitGovernor Op) (capacity : Nat) (w : IoWaiter Op)
    (grants : List IoGrant) :
    Prop :=
  ∃ next lease closed, w.id < next ∧ s.Jam capacity
    ⟨capacity, 1, next, [w], [], closed, [⟨lease, capacity, .gone, false⟩], grants⟩
      [w.operationId] lease

theorem Blocked.waiting_eq (h : s.Blocked capacity w grants) : s.waiting = [w] := by
  obtain ⟨_, _, _, -, hjam⟩ := h
  exact congrArg IoLedger.waiting hjam.ledger

theorem Blocked.grants_eq (h : s.Blocked capacity w grants) : s.grants = grants := by
  obtain ⟨_, _, _, -, hjam⟩ := h
  exact congrArg IoLedger.grants hjam.ledger

theorem full_idle (waiting capacity : Nat) : min waiting (capacity - capacity) = 0 := by
  rw [Nat.sub_self, Nat.min_zero]

/-- A steady run from the start blocks a waiter for everything. -/
theorem blocked_initial (hpos : 0 < capacity) (a b : Op) : ∃ events : List (IoEvent Op),
    (∀ e ∈ events, e.Steady capacity) ∧ ∃ w grants, w.operationId = a ∧
      ((initial Op capacity 4 0).run events).Blocked capacity w grants := by
  have hstart : (initial Op capacity 4 0).Jam capacity ⟨0, 0, 0, [], [], [], [], []⟩ [] 0 :=
    ⟨(quiet_initial capacity 4 0).1, rfl, rfl, nofun, ⟨rfl, rfl, nodup_nil, fun _ => rfl⟩, rfl,
      rfl, le_rfl⟩
  obtain ⟨s₁, hs₁, hfirst⟩ := hstart.request hpos (Nat.zero_min _) (Nat.zero_lt_succ 3) b
  have hgranted := hfirst.grant (w := wholeWaiter capacity 0 b) hpos rfl
    (filter_eq_self.mpr (by simp))
  rw [← hs₁, grantedWhole, nil_append, erase_cons_head] at hgranted
  have hdelivered := hgranted.deliver rfl
  obtain ⟨s₂, hs₂, hsecond⟩ := hdelivered.request hpos (Nat.zero_min _) (Nat.zero_lt_succ 3) a
  have hblocked := hsecond.idle (by exact full_idle _ _) fun _ => {}
  rw [← hs₂] at hblocked
  refine ⟨[requestOf b capacity, .deliver 0 false true (some fun _ => {}), requestOf a capacity],
    ?_,
    wholeWaiter capacity 1 a, _, rfl, 2, 1, _, Nat.lt_succ_self 1, hblocked⟩
  simp only [forall_mem_cons]
  exact ⟨requestOf_steady hpos _ _, ⟨faultless_plain, trivial⟩, requestOf_steady hpos _ _, nofun⟩

/-- **The other operation gets the permit again**: it queues a request, and the waiting
operation goes behind it by queueing one more request, which is then cancelled. -/
theorem Blocked.churn (h : s.Blocked capacity w grants) (hpos : 0 < capacity)
    (hb : w.operationId ≠ b) :
    ∃ events : List (IoEvent Op), (∀ e ∈ events, e.Steady capacity) ∧ ∃ g, w.id < g.waiter ∧
      (s.run events).Blocked capacity w (grants ++ [g]) := by
  obtain ⟨next, lease, closed, hid, hjam⟩ := h
  have hw : ∀ n op, next ≤ n → w ≠ wholeWaiter capacity n op := by
    rintro n op hn rfl
    exact Nat.not_le.mpr hid hn
  have hb' : b ∉ [w.operationId] := by simpa using hb.symm
  have hlast : [b, w.operationId].erase w.operationId ++ [w.operationId] = [b, w.operationId] := by
    simp [hb.symm]
  -- the other operation queues a request
  obtain ⟨s₁, hs₁, hother⟩ := hjam.request hpos (full_idle _ _) (show 1 < 4 by decide) b
  have hother := hother.idle (by exact full_idle _ _) fun _ => {}
  rw [← hs₁, erase_of_not_mem hb'] at hother
  -- the waiting operation goes to the end of the ring
  obtain ⟨s₂, hs₂, hagain⟩ := hother.request hpos (by exact full_idle _ _)
    (show 2 < 4 by decide) w.operationId
  have hagain := hagain.idle (by exact full_idle _ _) fun _ => {}
  rw [← hs₂, show ([w.operationId] ++ [b]).erase w.operationId = [b] from erase_cons_head ..]
    at hagain
  have hcancelled := hagain.cancel hpos rfl
    (w := wholeWaiter capacity (next + 1) w.operationId)
    (by simp [(Nat.lt_succ_of_lt hid).ne]) ⟨w, by simp [hw], rfl⟩
  rw [show [b] ++ [w.operationId] = [b, w.operationId] from rfl, hlast] at hcancelled
  -- the release grants the request of the other operation
  obtain ⟨s₃, hs₃, hreleased⟩ := hcancelled.release rfl rfl rfl rfl
  have hgranted := hreleased.grant (w := wholeWaiter capacity next b)
    hpos rfl (by simp [hw, hb])
  rw [← hs₃] at hgranted
  have hretired := hgranted.retire rfl rfl
  have hdelivered := hretired.deliver rfl
  have hqueue : (([w] ++ [wholeWaiter capacity next b] ++
    [wholeWaiter capacity (next + 1) w.operationId]).erase
      (wholeWaiter capacity (next + 1) w.operationId)).erase (wholeWaiter capacity next b) =
        [w] := by
    simp [hw]
  simp only [grantedWhole, hqueue] at hdelivered
  refine ⟨[requestOf b capacity, requestOf w.operationId capacity,
    .cancel (next + 1) true none (some fun _ => {}), .releaseResource lease (some fun _ => {}),
    .retirePermit lease true, .deliver next false true (some fun _ => {})], ?_,
    ⟨next, capacity, capacity⟩, hid, next + 2, lease + 1, _, Nat.lt_add_right 2 hid, hdelivered⟩
  simp only [forall_mem_cons]
  exact ⟨requestOf_steady hpos _ _, requestOf_steady hpos _ _,
    ⟨⟨rfl, faultless_plain⟩, trivial⟩, ⟨faultless_plain, trivial⟩, ⟨trivial, trivial⟩,
    ⟨faultless_plain, trivial⟩, nofun⟩

theorem Blocked.iterate (h : s.Blocked capacity w grants) (hpos : 0 < capacity)
    (hb : w.operationId ≠ b)
    (n : Nat) : ∃ events : List (IoEvent Op), (∀ e ∈ events, e.Steady capacity) ∧ ∃ later,
      (∀ g ∈ later, w.id < g.waiter) ∧ later.length = n ∧
      (s.run events).Blocked capacity w (grants ++ later) := by
  induction n with
  | zero => exact ⟨[], nofun, [], nofun, rfl, by rwa [append_nil]⟩
  | succ n ih =>
    obtain ⟨events, hevents, later, hlater, hlength, hblocked⟩ := ih
    obtain ⟨more, hmore, g, hg, hblocked'⟩ := hblocked.churn hpos hb
    refine ⟨events ++ more, forall_mem_append.mpr ⟨hevents, hmore⟩, later ++ [g],
      forall_mem_append.mpr ⟨hlater, forall_mem_singleton.mpr hg⟩, by simp [hlength], ?_⟩
    rw [run, foldl_append, ← append_assoc]
    exact hblocked'

/-- From a blocked state a steady run gives back all of the capacity. -/
theorem Blocked.finish (h : s.Blocked capacity w grants) (hpos : 0 < capacity) :
    ∃ events : List (IoEvent Op), (∀ e ∈ events, e.Steady capacity) ∧ (s.run events).inUse = 0 := by
  obtain ⟨next, lease, closed, hid, hjam⟩ := h
  obtain ⟨s₁, hs₁, hreleased⟩ := hjam.release rfl rfl rfl rfl
  have hgranted := hreleased.grant (w := w) hpos rfl (by simp)
  rw [← hs₁] at hgranted
  have hdelivered := (hgranted.retire rfl rfl).deliver rfl
  obtain ⟨s₂, hs₂, hlast⟩ := hdelivered.release rfl rfl rfl rfl
  have hfree := hlast.idle (by exact Nat.zero_min _) fun _ => {}
  rw [← hs₂] at hfree
  refine ⟨[.releaseResource lease (some fun _ => {}), .retirePermit lease true,
    .deliver w.id false true (some fun _ => {}), .releaseResource (lease + 1) (some fun _ => {})],
      ?_,
    congrArg IoLedger.inUse hfree.ledger⟩
  simp only [forall_mem_cons]
  exact ⟨⟨faultless_plain, trivial⟩, ⟨trivial, trivial⟩, ⟨faultless_plain, trivial⟩,
    ⟨faultless_plain, trivial⟩, nofun⟩

end RemoteIoPermitGovernor

/-- **With two operations there is no bound.** -/
theorem not_fair_of_two {capacity operations : Nat} {E : IoEvent (Fin operations) → Prop}
    (hE : ∀ e, e.Steady capacity → E e) (hpos : 0 < capacity) (htwo : 2 ≤ operations)
    (bound : Nat) : ¬ PermitFair capacity operations E bound := by
  intro hfair
  obtain ⟨before, hbefore, w, grants, hw, hblocked⟩ :=
    blocked_initial hpos (⟨0, by omega⟩ : Fin operations) ⟨1, by omega⟩
  have hb : w.operationId ≠ ⟨1, by omega⟩ := by simp [hw]
  obtain ⟨during, hduring, later, hlater, hlength, hblocked'⟩ :=
    hblocked.iterate hpos hb (bound + 1)
  obtain ⟨after, hafter, hfinished⟩ := hblocked'.finish hpos
  have hsteady : ∀ e ∈ before ++ during ++ after, e.Steady capacity :=
    forall_mem_append.mpr ⟨forall_mem_append.mpr ⟨hbefore, hduring⟩, hafter⟩
  have hbound := hfair 4 0 before during after (fun e he =>
    hE e (hsteady e he)) hfinished w.operationId w
    (by rw [operationWaiters, hblocked.waiting_eq]; simp)
    ⟨w, by rw [hblocked'.waiting_eq]; exact mem_cons_self, rfl⟩
  rw [hblocked.grants_eq, hblocked'.grants_eq, drop_left, laterGrants,
    filter_eq_self.mpr fun g hg => decide_eq_true (hlater g hg), hlength] at hbound
  omega

/-- **The fairness of permits**: the grants that a request may be passed by are bounded if
and only if there is at most one operation, in the runs without failures that keep the capacity
and in all larger classes of runs. -/
theorem permit_fair_iff {capacity : Nat} (hcapacity : 0 < capacity) (operations : Nat)
    {E : IoEvent (Fin operations) → Prop} (hE : ∀ e, e.Steady capacity → E e) :
    (∃ bound, PermitFair capacity operations E bound) ↔ operations ≤ 1 := by
  refine ⟨fun ⟨bound, hfair⟩ => ?_, fun h => ⟨maxHeadBypasses, fair_of_subsingleton E h⟩⟩
  by_contra htwo
  exact not_fair_of_two hE hcapacity (by omega) bound hfair

theorem permit_fair_iff_one : ∃ bound, PermitFair 4 1 (fun _ => True) bound :=
  (permit_fair_iff (by decide) 1 fun _ _ => trivial).mpr le_rfl

/-- Capacity one and two operations: requests of one operation are granted without end
while the oldest request of the other one waits. -/
theorem permit_unfair_two : ¬ ∃ bound, PermitFair 1 2 (IoEvent.Steady 1) bound :=
  fun ⟨bound, hfair⟩ => not_fair_of_two (fun _ he => he) Nat.one_pos le_rfl bound hfair

end SchemaSanitizer
