/-
SchemaSanitizer/PermitAccounting.lean

What the permit governor keeps over whole runs: the books of the capacity in use, and
who holds the control tickets.

The abstract governor is a ledger of waiters and permits without any index of weights.
Its moves grant any waiter that fits, and move a waiter or a permit to its next state.
Every locked section is a sequence of moves (`moves_step`): the search for a waiter
changes the index, and then possibly takes one fitting waiter out of its queue.  What
the index says plays no role, so that the results hold after any internal failure.
-/
import SchemaSanitizer.PermitGovernor

namespace SchemaSanitizer

open RemoteIoPermitGovernor List

variable {Op : Type} [DecidableEq Op] {s : RemoteIoPermitGovernor Op}

/-! ### The search for a waiter -/

variable {waiter : IoWaiter Op} {bypassed : Bool}

namespace RemoteIoPermitGovernor

variable {available : Nat} {queue : List (IoWaiter Op)}

omit [DecidableEq Op] in
/-- The head of a queue is passed over only while it may be bypassed. -/
theorem operationCandidate_head {head : IoWaiter Op}
    (h : s.operationCandidate available queue = some (waiter, bypassed))
    (hhead : head ∈ queue.head?) :
    head = waiter ∨ head.bypasses < maxHeadBypasses ∧ bypassed = true := by
  cases queue with
  | nil => cases h
  | cons head' rest =>
    cases hhead
    rw [operationCandidate] at h
    split_ifs at h with hfits hbypasses
    · cases h
      exact .inl rfl
    · obtain ⟨w, -, heq⟩ := Option.map_eq_some_iff.mp h
      cases heq
      exact .inr ⟨Nat.lt_of_not_le hbypasses, rfl⟩

omit [DecidableEq Op] in
theorem operationCandidate_mem
    (h : s.operationCandidate available queue = some (waiter, bypassed)) :
    waiter ∈ queue ∧ s.effectiveWeight waiter ≤ available := by
  cases queue with
  | nil => cases h
  | cons head rest =>
    rw [operationCandidate] at h
    split_ifs at h with hfits
    · cases h
      exact ⟨mem_cons_self, hfits⟩
    · obtain ⟨w, hw, heq⟩ := Option.map_eq_some_iff.mp h
      cases heq
      have hmem := mem_of_mem_take (mem_of_find?_eq_some hw)
      exact ⟨mem_cons_of_mem _ hmem, by simpa using find?_some hw⟩

theorem retireFromQueue_fst (s : RemoteIoPermitGovernor Op) (round : GrantRound Op) (weight : Nat)
    (waiter : IoWaiter Op) (bypassed : Bool) : ∃ order index dirty,
    (s.retireFromQueue round weight waiter bypassed).1 =
      { s with
        waiting := s.queuesWithout waiter bypassed
        waitingCount := s.waitingCount - 1
        operationOrder := order
        index := index
        schedulingDirty := dirty } := by
  rw [retireFromQueue]
  cases round.damages with
  | none | some => exact ⟨_, _, _, rfl⟩

/-- **The search** changes the index only, or takes a waiter that fits out of its queue. -/
theorem takeCandidate_cases (available : Nat) (round : GrantRound Op) (weights : Nat) :
    ∀ s : RemoteIoPermitGovernor Op,
    (∃ index, s.takeCandidate available round weights = ({ s with index }, none)) ∨
    ∃ index weight waiter bypassed, s.waitingCount ≠ 0 ∧
      s.operationCandidate available (s.operationWaiters waiter.operationId) =
      some (waiter, bypassed) ∧
      s.takeCandidate available round weights =
        (retireFromQueue { s with index } round weight waiter bypassed).map id some := by
  induction weights with
  | zero => exact fun s => .inl ⟨s.index, rfl⟩
  | succ weights ih =>
    intro s
    rw [takeCandidate]
    split
    · exact .inl ⟨s.index, rfl⟩
    split
    · exact ih { s with index := _ }
    dsimp only
    split
    · exact ih { s with index := _ }
    split
    · exact ih { s with index := _ }
    split
    · exact ih { s with index := _ }
    · rename_i waiter bypassed hfound
      split_ifs at hfound
      by_cases hcount : s.waitingCount = 0
      · exact .inl ⟨_, if_pos hcount⟩
      · have hop := of_decide_eq_true (mem_filter.mp (operationCandidate_mem hfound).1).2
        rw [← hop] at hfound
        exact .inr ⟨_, _, waiter, bypassed, hcount, hfound, if_neg hcount⟩

end RemoteIoPermitGovernor

/-! ### The ledger -/

/-- The waiters and permits of a governor, and its counters. -/
structure IoLedger (Op : Type) where
  inUse : Nat
  waitingCount : Nat
  nextWaiter : Nat
  waiting : List (IoWaiter Op)
  granted : List (IoWaiter Op)
  closed : List (IoWaiter Op)
  permitOwners : List PermitEntry
  grants : List IoGrant

def RemoteIoPermitGovernor.ledger (s : RemoteIoPermitGovernor Op) : IoLedger Op :=
  ⟨s.inUse, s.waitingCount, s.nextWaiter, s.waiting, s.granted, s.closed, s.permitOwners, s.grants⟩

/-- One move.  A grant passes the head of the operation only a few times.  `G` and `C`
restrict what the control plane answers when a ticket is retired at a grant, and when a
waiter is closed; `L` says which granted waiters may leave. -/
inductive LedgerMove (G C : Bool → Prop) (L : IoWaiter Op → Prop) : IoLedger Op → IoLedger Op → Prop
  | grant {l : IoLedger Op} {w : IoWaiter Op} {retires : Bool} {weight capacity : Nat}
      (passed : IoWaiter Op → Prop) [DecidablePred passed] (hw : w ∈ l.waiting) (hG : G retires)
      (hhead : ∀ head ∈ (l.waiting.filter fun x => x.operationId = w.operationId).head?,
        head = w ∨ head.bypasses < maxHeadBypasses ∧ passed head)
      (hfits : l.inUse + weight ≤ capacity) :
      LedgerMove G C L l { l with
        waiting := (l.waiting.erase w).map fun w =>
          if passed w then { w with bypasses := w.bypasses + 1 } else w
        waitingCount := l.waitingCount - 1
        granted := l.granted ++ [retireWaiterControl retires { w with grantedWeight := weight }]
        inUse := l.inUse + weight
        grants := l.grants ++ [⟨w.id, l.inUse + weight, capacity⟩] }
  | enqueue {l : IoLedger Op} {w : IoWaiter Op} (hw : w.controlTicket = .held)
      (hid : w.id = l.nextWaiter) :
      LedgerMove G C L l { l with
        waiting := l.waiting ++ [w]
        waitingCount := l.waitingCount + 1
        nextWaiter := l.nextWaiter + 1 }
  | reject {l : IoLedger Op} {w : IoWaiter Op} {retires : Bool} (hC : C retires) :
      LedgerMove G C L l { l with closed := l.closed ++ [retireWaiterControl retires w] }
  | remove {l : IoLedger Op} {w : IoWaiter Op} {retires : Bool} (hw : w ∈ l.waiting)
      (hC : C retires) :
      LedgerMove G C L l { l with
        waiting := l.waiting.erase w
        waitingCount := l.waitingCount - 1
        closed := l.closed ++ [retireWaiterControl retires w] }
  | reclaim {l : IoLedger Op} {w : IoWaiter Op} {retires : Bool} (hw : w ∈ l.granted) (hL : L w)
      (hC : C retires) (hused : ¬ l.inUse < w.grantedWeight) :
      LedgerMove G C L l { l with
        granted := l.granted.erase w
        inUse := l.inUse - w.grantedWeight
        closed := l.closed ++ [retireWaiterControl retires w] }
  | underflow {l : IoLedger Op} {w : IoWaiter Op} (hw : w ∈ l.granted) (hL : L w)
      (hused : l.inUse < w.grantedWeight) :
      LedgerMove G C L l { l with
        granted := l.granted.erase w
        closed := l.closed ++ [w] }
  | deliver {l : IoLedger Op} {w : IoWaiter Op} (lease : Nat) (hw : w ∈ l.granted) (hL : L w) :
      LedgerMove G C L l { l with
        granted := l.granted.erase w
        permitOwners := l.permitOwners ++ [⟨lease, w.grantedWeight, w.controlTicket, false⟩]
        closed := l.closed ++ [{ w with controlTicket := .gone }] }
  | release {l : IoLedger Op} {p : PermitEntry} (hp : p ∈ l.permitOwners)
      (hheld : ¬ (p.resourceReleased ∨ l.inUse < p.amount)) :
      LedgerMove G C L l { l with
        inUse := l.inUse - p.amount
        permitOwners := l.permitOwners.erase p ++ [{ p with resourceReleased := true }] }
  | retire {l : IoLedger Op} {p : PermitEntry} (hp : p ∈ l.permitOwners)
      (hreleased : p.resourceReleased = true) :
      LedgerMove G C L l { l with permitOwners := l.permitOwners.erase p }
  | defer {l : IoLedger Op} {p : PermitEntry} (ticket : ControlTicket) (hp : p ∈ l.permitOwners)
      (hreleased : p.resourceReleased = true) :
      LedgerMove G C L l { l with
        permitOwners := l.permitOwners.erase p ++ [{ p with controlTicket := ticket }] }
  | drain {l : IoLedger Op} (waiters permits : Nat → Bool) :
      LedgerMove G C L l { l with
        granted := l.granted.map (drainWaiter waiters)
        closed := l.closed.map (drainWaiter waiters)
        permitOwners := l.permitOwners.map fun p =>
          { p with controlTicket := p.controlTicket.drain (permits p.leaseId) } }

/-- A sequence of moves. -/
abbrev LedgerMoves (G C : Bool → Prop) (L : IoWaiter Op → Prop) : IoLedger Op →
    IoLedger Op → Prop :=
  Relation.ReflTransGen (LedgerMove G C L)

/-! ### Sections are sequences of moves -/

/-- What the control plane answers at the grants of a section. -/
def GrantRounds.Answer (G : Bool → Prop) (rounds : GrantRounds Op) : Prop :=
  ∀ r ∈ rounds, ∀ n, G (r n).retires

/-- What the control plane answers in a section. -/
def IoEvent.Answer (G C : Bool → Prop) : IoEvent Op → Prop
  | .acquire _ _ _ before after _ retires =>
    GrantRounds.Answer G before ∧ GrantRounds.Answer G after ∧ C retires
  | .deliver _ _ retires rounds => GrantRounds.Answer G rounds ∧ C retires
  | .cancel _ retires _ rounds => GrantRounds.Answer G rounds ∧ C retires
  | .poll _ rounds => GrantRounds.Answer G rounds
  | .releaseResource _ rounds => GrantRounds.Answer G rounds
  | .configure _ _ rounds => GrantRounds.Answer G rounds
  | .register _ _ rounds => GrantRounds.Answer G rounds
  | .releaseRegistration _ rounds => GrantRounds.Answer G rounds
  | .retirePermit _ _ | .drain _ _ | .closeAdmission => True

namespace RemoteIoPermitGovernor

variable {G C : Bool → Prop} {L : IoWaiter Op → Prop} {l : IoLedger Op} {rounds : GrantRounds Op}
  {retires : Bool}

omit [DecidableEq Op] in
@[simp] theorem ledger_repairScheduler (s : RemoteIoPermitGovernor Op) :
    s.repairScheduler.ledger = s.ledger := by
  rw [repairScheduler]
  split <;> rfl

/-- Granting a candidate is one move of the ledger. -/
theorem move_grant {round : GrantRound Op} (weight : Nat) {waiter : IoWaiter Op} {bypassed : Bool}
    (hfound : s.operationCandidate (s.capacity - s.inUse) (s.operationWaiters waiter.operationId) =
      some (waiter, bypassed)) (hG : G round.retires) (hfree : s.inUse ≤ s.capacity) :
    LedgerMove G C L s.ledger ((retireFromQueue s round weight waiter bypassed).1.grant
      (retireFromQueue s round weight waiter bypassed).2).ledger := by
  obtain ⟨_, _, _, hstate⟩ := s.retireFromQueue_fst round weight waiter bypassed
  obtain ⟨hmem, hfits⟩ := operationCandidate_mem hfound
  have hhead : ∀ head ∈ (s.operationWaiters waiter.operationId).head?, head = waiter ∨
      head.bypasses < maxHeadBypasses ∧
        (bypassed ∧ head = (s.operationWaiters waiter.operationId).headD waiter) := by
    intro head hhead
    refine (operationCandidate_head hfound hhead).imp_right fun h => ⟨h.1, h.2, ?_⟩
    rw [headD_eq_head?_getD, Option.mem_def.mp hhead, Option.getD_some]
  rw [hstate]
  exact .grant _ (mem_of_mem_filter hmem) hG hhead (Nat.add_le_of_le_sub' hfree hfits)

/-- The grant loop is a run of moves, whatever its rounds are told. -/
theorem moves_grantLoop : ∀ {fuel batch : Nat} {rounds : Nat → GrantRound Op}
    {s : RemoteIoPermitGovernor Op}, (∀ n, G (rounds n).retires) →
    LedgerMoves G C L s.ledger (s.grantLoop fuel batch rounds).ledger
  | 0, _, _, _, _ => .refl
  | fuel + 1, batch, rounds, s, hG => by
    have hG' : ∀ n, G (rounds (n + 1)).retires := fun n => hG (n + 1)
    rw [grantLoop]
    split
    · exact .refl
    dsimp only
    split
    · exact .refl
    rename_i hfree
    split
    · exact .refl
    rcases takeCandidate_cases (s.applyCachedCapacity.capacity - s.applyCachedCapacity.inUse)
      (rounds 0)
      s.applyCachedCapacity.index.weightOrder.length s.applyCachedCapacity with
      ⟨index, htake⟩ | ⟨index, weight, waiter, bypassed, -, hfound, htake⟩
    · rw [htake]
      dsimp only
      split
      · rename_i hrecover
        obtain ⟨op, -, rfl⟩ := Option.map_eq_some_iff.mp hrecover
        exact moves_grantLoop (s := refreshOperationWeight
          { s.applyCachedCapacity with index } op) hG'
      · exact .refl
    · rw [htake]
      have hgrant : LedgerMove G C L s.ledger _ :=
        move_grant (s := { s.applyCachedCapacity with index }) weight hfound (hG 0)
          (Nat.lt_of_not_le hfree).le
      exact .head hgrant (moves_grantLoop hG')

theorem moves_grantReady (hl : LedgerMoves G C L l s.ledger) {rounds : Nat → GrantRound Op}
    (hG : ∀ n, G (rounds n).retires) : LedgerMoves G C L l (s.grantReady rounds).ledger := by
  rw [← ledger_repairScheduler] at hl
  exact hl.trans (moves_grantLoop hG)

theorem moves_postCommitReschedule (hl : LedgerMoves G C L l s.ledger) (hG : rounds.Answer G) :
    LedgerMoves G C L l (s.postCommitReschedule rounds).ledger := by
  have hready : LedgerMoves G C L l s.applyCachedCapacity.repairScheduler.ledger := by
    rw [ledger_repairScheduler]
    exact hl
  cases rounds with
  | none => exact hready
  | some rounds => exact moves_grantReady hready (hG rounds rfl)

theorem move_enqueue (op : Op) (weight : Nat) :
    LedgerMove G C L s.ledger (s.enqueueWaiter op weight).ledger := .enqueue rfl rfl

/-- An acquisition is a run of moves, also where the enqueueing fails. -/
theorem moves_acquire (op : Op) (weight : Nat) (scale : Nat → Nat) {before after : GrantRounds Op}
    (enqueueFails : Option (WeightIndex Op)) (hbefore : before.Answer G) (hafter : after.Answer G)
    (hC : C retires) :
    LedgerMoves G C L s.ledger
    (s.acquire op weight scale before after enqueueFails retires).ledger := by
  rw [acquire]
  dsimp only
  split
  · exact .refl
  split
  · exact .single (.reject hC)
  cases before with
  | none => exact .single (.reject hC)
  | some rounds =>
    have hready : LedgerMoves G C L s.ledger ((recomputeCapacity
        { s with pressureScale := scale }).grantReady rounds).ledger := by
      refine moves_grantReady ?_ (hbefore rounds rfl)
      exact .refl
    dsimp only
    split
    · exact hready.tail (.reject hC)
    cases enqueueFails with
    | some index => exact hready.tail (.reject hC)
    | none =>
      have hqueued := hready.tail (move_enqueue op weight)
      cases after with
      | none => exact hqueued
      | some rounds => exact moves_grantReady hqueued (hafter rounds rfl)

/-- Taking a grant back is a run of moves. -/
theorem moves_reclaimGrantedWaiter {w : IoWaiter Op} (hw : w ∈ s.granted) (hL : L w)
    (hG : rounds.Answer G)
    (hC : C retires) :
    LedgerMoves G C L s.ledger (s.reclaimGrantedWaiter w retires rounds).ledger := by
  rw [reclaimGrantedWaiter, returnInUse]
  dsimp only
  split
  · rename_i hshort
    split at hshort
    · rename_i hused
      cases hshort
      exact .single (.underflow hw hL hused)
    · cases hshort
  · rename_i hreturned
    split at hreturned
    · cases hreturned
    · rename_i hused
      cases hreturned
      exact moves_postCommitReschedule (.single (.reclaim hw hL hC hused)) hG

theorem ledger_removeWaiter (w : IoWaiter Op) (retires : Bool) (damages : Option (WeightIndex Op)) :
    (s.removeWaiter w retires damages).ledger = { s.ledger with
      waiting := s.waiting.erase w
      waitingCount := s.waitingCount - 1
      closed := s.closed ++ [retireWaiterControl retires w] } := by
  rw [removeWaiter.eq_def]
  cases damages with
  | some index => rfl
  | none =>
    dsimp only
    split <;> rfl

/-- **Every locked section is a sequence of moves.**  Only waiters that were granted before leave
in it. -/
theorem moves_step {e : IoEvent Op} (he : e.Answer G C) (hL : ∀ w ∈ s.granted, L w) :
    LedgerMoves G C L s.ledger (s.step e).ledger := by
  cases e with
  | acquire op weight scale before after enqueueFails retires =>
    obtain ⟨hbefore, hafter, hC⟩ := he
    exact moves_acquire op weight scale enqueueFails hbefore hafter hC
  | deliver waiter fails retires rounds =>
    rw [step]
    split
    · exact .refl
    rename_i w hfind
    have hw := mem_of_find?_eq_some hfind
    rw [deliverWaiter]
    split
    · exact moves_reclaimGrantedWaiter hw (hL w hw) he.1 he.2
    · exact .single (.deliver _ hw (hL w hw))
  | cancel waiter retires damages rounds =>
    rw [step]
    split
    · rename_i w hfind
      have hremove : LedgerMove G C L s.ledger (s.removeWaiter w retires damages).ledger := by
        rw [ledger_removeWaiter]
        exact .remove (mem_of_find?_eq_some hfind) he.2
      exact moves_postCommitReschedule (.single hremove) he.1
    split
    · rename_i w hfind
      have hw := mem_of_find?_eq_some hfind
      exact moves_reclaimGrantedWaiter hw (hL w hw) he.1 he.2
    · exact .refl
  | poll waiter rounds =>
    rw [step]
    split
    · exact moves_postCommitReschedule .refl he
    · exact .refl
  | releaseResource lease rounds =>
    rw [step]
    split
    · exact .refl
    rename_i p hfind
    rw [releaseResource]
    split
    · exact .refl
    · rename_i hheld
      exact moves_postCommitReschedule (.single (.release (mem_of_find?_eq_some hfind) hheld)) he
  | retirePermit lease retires =>
    rw [step]
    split
    · exact .refl
    rename_i p hfind
    have hp := mem_of_find?_eq_some hfind
    rw [retirePermit]
    split
    · rename_i hreleased
      split
      · exact .single (.retire hp hreleased)
      · exact .single (.defer _ hp hreleased)
    · exact .refl
  | drain waiters permits => exact .single (.drain waiters permits)
  | configure requested scale rounds =>
    rw [step, configureCapacity]
    split
    · exact .refl
    cases rounds with
    | none => exact .refl
    | some rounds =>
      refine moves_grantReady ?_ (he rounds rfl)
      exact .refl
  | register requested scale rounds =>
    rw [step, registerCapacity]
    dsimp only
    split
    · exact .refl
    split
    · exact .refl
    cases rounds with
    | none => exact .refl
    | some rounds =>
      refine moves_grantReady ?_ (he rounds rfl)
      exact .refl
  | releaseRegistration token rounds =>
    rw [step]
    split
    · refine moves_postCommitReschedule ?_ he
      exact .refl
    · exact .refl
  | closeAdmission => exact .refl

/-- **The invariant rule**: what the moves keep, runs keep. -/
theorem run_invariant {I : IoLedger Op → Prop}
    (hI : ∀ l l', I l → LedgerMove G C (fun _ => True) l l' → I l') {events : List (IoEvent Op)}
    (hevents : ∀ e ∈ events, e.Answer G C) (hs : I s.ledger) :
    I (s.run events).ledger := by
  have hmoves : ∀ {l l'}, LedgerMoves G C (fun _ => True) l l' → I l → I l' := by
    intro l l' h hl
    induction h with
    | refl => exact hl
    | tail _ hmove ih => exact hI _ _ ih hmove
  induction events generalizing s with
  | nil => exact hs
  | cons e events ih =>
    have hstep := hmoves (moves_step (hevents e mem_cons_self) fun _ _ => trivial) hs
    exact ih (fun e he => hevents e (mem_cons_of_mem _ he)) hstep

end RemoteIoPermitGovernor

/-! ### The books -/

variable {l l' : IoLedger Op}

/-- What a permit has in use. -/
def PermitEntry.held (p : PermitEntry) : Nat := if p.resourceReleased then 0 else p.amount

/-- **The books**: what is in use, who waits, and that every grant kept to the capacity. -/
structure IoLedger.Books (l : IoLedger Op) : Prop where
  used : l.inUse = (l.granted.map IoWaiter.grantedWeight).sum +
    (l.permitOwners.map PermitEntry.held).sum
  counted : l.waitingCount = l.waiting.length
  within : ∀ g ∈ l.grants, g.inUse ≤ g.capacity

/-- Every move keeps the books. -/
theorem LedgerMove.books {G C : Bool → Prop} {L : IoWaiter Op → Prop} (h : l.Books)
    (hmove : LedgerMove G C L l l') :
    l'.Books := by
  obtain ⟨hused, hcounted, hwithin⟩ := h
  cases hmove with
  | grant passed hw hG hhead hfits =>
    refine ⟨?_, ?_, fun g hg => ?_⟩
    · simp only [map_append, sum_append, map_cons, map_nil, sum_singleton,
        retireWaiterControl]
      omega
    · simp only [length_map, length_erase_of_mem hw, hcounted]
    · rcases mem_append.mp hg with hg | hg
      · exact hwithin g hg
      · obtain rfl := mem_singleton.mp hg
        exact hfits
  | enqueue => exact ⟨hused, by simp [hcounted], hwithin⟩
  | reject => exact ⟨hused, hcounted, hwithin⟩
  | remove hw => exact ⟨hused, by simp [length_erase_of_mem hw, hcounted], hwithin⟩
  | reclaim hw =>
    have hsum := sum_map_erase IoWaiter.grantedWeight hw
    refine ⟨?_, hcounted, hwithin⟩
    dsimp only
    omega
  | underflow hw hshort =>
    -- the books cover every grant, so there is none to give back that is not in use
    have hsum := sum_map_erase IoWaiter.grantedWeight hw
    omega
  | deliver lease hw =>
    have hsum := sum_map_erase IoWaiter.grantedWeight hw
    refine ⟨?_, hcounted, hwithin⟩
    simp only [map_append, sum_append, map_cons, map_nil, sum_singleton,
      PermitEntry.held, Bool.false_eq_true, if_false]
    omega
  | release hp hheld =>
    have hsum := sum_map_erase PermitEntry.held hp
    rw [PermitEntry.held, if_neg (not_or.mp hheld).1] at hsum
    refine ⟨?_, hcounted, hwithin⟩
    simp only [map_append, sum_append, map_cons, map_nil, sum_singleton]
    rw [PermitEntry.held, if_pos rfl]
    omega
  | retire hp hreleased =>
    have hsum := sum_map_erase PermitEntry.held hp
    rw [PermitEntry.held, if_pos hreleased, Nat.zero_add] at hsum
    exact ⟨by rw [hsum]; exact hused, hcounted, hwithin⟩
  | defer ticket hp hreleased =>
    have hsum := sum_map_erase PermitEntry.held hp
    refine ⟨?_, hcounted, hwithin⟩
    simp only [map_append, sum_append, map_cons, map_nil, sum_singleton, PermitEntry.held,
      if_pos hreleased] at hsum ⊢
    omega
  | drain waiters permits =>
    refine ⟨?_, hcounted, hwithin⟩
    rw [map_map, map_map]
    exact hused

omit [DecidableEq Op] in
theorem IoEvent.answer_true (e : IoEvent Op) : e.Answer (fun _ => True) (fun _ => True) := by
  cases e <;> simp [IoEvent.Answer, GrantRounds.Answer]

/-- **The accounting of permits is exact**, after every run: what is in use is what the
granted waiters and the unreleased permits have, no grant exceeded the capacity of its
moment, and the waiters are counted. -/
theorem permit_accounting_exact (capacity maxWaiters maxCapacityRegistrations : Nat)
    (events : List (IoEvent Op)) :
    let s := (initial Op capacity maxWaiters maxCapacityRegistrations).run events
    s.inUse = (s.granted.map IoWaiter.grantedWeight).sum +
    (s.permitOwners.map PermitEntry.held).sum ∧
      (∀ g ∈ s.grants, g.inUse ≤ g.capacity) ∧ s.waitingCount = s.waiting.length := by
  have hstart : (initial Op capacity maxWaiters maxCapacityRegistrations).ledger.Books :=
    ⟨rfl, rfl, nofun⟩
  obtain ⟨hused, hcounted, hwithin⟩ :=
    run_invariant (fun _ _ => LedgerMove.books) (fun e _ => e.answer_true) hstart
  exact ⟨hused, hwithin, hcounted⟩

/-! ### The tickets -/

/-- Whoever waits, is granted or has a permit holds its ticket, and nobody else. -/
structure IoLedger.Tickets (l : IoLedger Op) : Prop where
  waiting : ∀ w ∈ l.waiting, w.controlTicket ≠ .gone
  granted : ∀ w ∈ l.granted, w.controlTicket ≠ .gone
  permits : ∀ p ∈ l.permitOwners, p.controlTicket ≠ .gone
  closed : ∀ w ∈ l.closed, w.controlTicket = .gone

/-- The tickets before the first grant. -/
structure IoLedger.Ungranted (l : IoLedger Op) : Prop extends l.Tickets where
  nobody : l.granted = []
  unpermitted : l.permitOwners = []

theorem ControlTicket.release_true (ticket : ControlTicket) : ticket.release true = .gone := by
  cases ticket <;> rfl

section Tickets

variable {L : IoWaiter Op → Prop} {events : List (IoEvent Op)}

/-- **The step lemma before the first grant**: a waiter that is rejected or cancelled gives its
ticket back. -/
theorem LedgerMove.ungranted (h : l.grants = [] → l.Ungranted)
    (hmove : LedgerMove (· = true) (· = true) L l l') (hnone : l'.grants = []) : l'.Ungranted := by
  have hretired : ∀ (w : IoWaiter Op), (∀ x ∈ l.closed, x.controlTicket = .gone) →
      ∀ x ∈ l.closed ++ [retireWaiterControl true w], x.controlTicket = .gone := by
    intro w hclosed
    rw [forall_mem_append, forall_mem_singleton]
    exact ⟨hclosed, w.controlTicket.release_true⟩
  cases hmove with
  | grant => exact absurd hnone (append_ne_nil_of_right_ne_nil _ (cons_ne_nil _ _))
  | enqueue hw =>
    obtain ⟨⟨hwaiting, hgranted, hpermits, hclosed⟩, hnobody, hunpermitted⟩ := h hnone
    refine ⟨⟨?_, hgranted, hpermits, hclosed⟩, hnobody, hunpermitted⟩
    rw [forall_mem_append, forall_mem_singleton, hw]
    exact ⟨hwaiting, nofun⟩
  | @reject w _ hC =>
    obtain ⟨⟨hwaiting, hgranted, hpermits, hclosed⟩, hnobody, hunpermitted⟩ := h hnone
    subst hC
    exact ⟨⟨hwaiting, hgranted, hpermits, hretired w hclosed⟩, hnobody, hunpermitted⟩
  | @remove w _ hw hC =>
    obtain ⟨⟨hwaiting, hgranted, hpermits, hclosed⟩, hnobody, hunpermitted⟩ := h hnone
    subst hC
    exact ⟨⟨fun x hx => hwaiting x (mem_of_mem_erase hx), hgranted, hpermits, hretired w hclosed⟩,
      hnobody, hunpermitted⟩
  | reclaim hw | underflow hw | deliver _ hw =>
    rw [(h hnone).nobody] at hw
    cases hw
  | release hp | retire hp | defer _ hp =>
    rw [(h hnone).unpermitted] at hp
    cases hp
  | drain waiters permits =>
    obtain ⟨⟨hwaiting, -, -, hclosed⟩, hnobody, hunpermitted⟩ := h hnone
    simp only [hnobody, hunpermitted, map_nil]
    refine ⟨⟨hwaiting, nofun, nofun, ?_⟩, rfl, rfl⟩
    rw [forall_mem_map]
    intro w hw
    rw [drainWaiter, hclosed w hw]
    rfl

/-- While nobody leaves, the ticket of a granted waiter stays gone. -/
theorem LedgerMove.retired {C : Bool → Prop}
    (h : l.grants = [] ∨ ∃ w ∈ l.granted, w.controlTicket = .gone)
    (hmove : LedgerMove (· = true) C (fun _ => False) l l') :
    l'.grants = [] ∨ ∃ w ∈ l'.granted, w.controlTicket = .gone := by
  cases hmove with
  | @grant w _ weight _ _ _ _ hG =>
    subst hG
    exact .inr ⟨_, mem_append_right _ mem_cons_self, w.controlTicket.release_true⟩
  | reclaim _ hL | underflow _ hL | deliver _ _ hL => exact hL.elim
  | drain waiters permits =>
    refine h.imp_right ?_
    rintro ⟨w, hw, hgone⟩
    exact ⟨_, mem_map_of_mem hw, by rw [drainWaiter, hgone]; rfl⟩
  | _ => exact h

/-- Grants are never forgotten. -/
theorem grants_prefix_run : s.grants <+: (s.run events).grants :=
  run_invariant (I := fun l => s.grants <+: l.grants)
    (fun _ _ hl hmove => by
      cases hmove with
      | grant => exact hl.trans (prefix_append _ _)
      | _ => exact hl)
    (fun e _ => e.answer_true) (prefix_refl s.grants)

/-- **The section of the first grant** breaks the rule: the waiter it grants has lost its ticket. -/
theorem grants_step_of_tickets {e : IoEvent Op} (he : e.Answer (· = true) (· = true))
    (hs : s.ledger.Ungranted) (hnone : s.grants = []) (htickets : (s.step e).ledger.Tickets) :
    (s.step e).grants = [] := by
  have hmoves : LedgerMoves (· = true) (· = true) (fun _ => False) s.ledger (s.step e).ledger := by
    refine moves_step he fun w hw => ?_
    rw [show s.granted = [] from hs.nobody] at hw
    cases hw
  have hretired : (s.step e).ledger.grants = [] ∨
      ∃ w ∈ (s.step e).ledger.granted, w.controlTicket = .gone := by
    generalize (s.step e).ledger = l at hmoves
    induction hmoves with
    | refl => exact .inl hnone
    | tail _ hmove ih => exact hmove.retired ih
  refine hretired.resolve_right ?_
  rintro ⟨w, hw, hgone⟩
  exact htickets.granted w hw hgone

end Tickets

/-- **The tickets of a run** in which the control plane commits every retirement: they are where
they belong in each of its states if and only if nothing is granted. -/
theorem permit_tickets_held_iff (capacity maxWaiters maxCapacityRegistrations : Nat)
    (events : List (IoEvent Op)) (h : ∀ e ∈ events, e.Answer (· = true) (· = true)) :
    (∀ n, ((initial Op capacity maxWaiters maxCapacityRegistrations).run
      (events.take n)).ledger.Tickets) ↔
      ((initial Op capacity maxWaiters maxCapacityRegistrations).run events).grants = [] := by
  have hstart : (initial Op capacity maxWaiters maxCapacityRegistrations).ledger.Ungranted :=
    ⟨⟨nofun, nofun, nofun, nofun⟩, rfl, rfl⟩
  have hnone : (initial Op capacity maxWaiters maxCapacityRegistrations).grants = [] := rfl
  generalize initial Op capacity maxWaiters maxCapacityRegistrations = s at hstart hnone ⊢
  constructor
  · intro htickets
    induction events generalizing s with
    | nil => exact hnone
    | cons e events ih =>
      have he := h e mem_cons_self
      have hgrants : (s.step e).grants = [] :=
        grants_step_of_tickets he hstart hnone (htickets 1)
      have hungranted : (s.step e).ledger.Ungranted :=
        run_invariant (I := fun l => l.grants = [] → l.Ungranted)
          (fun _ _ hl hmove => hmove.ungranted hl) (forall_mem_singleton.mpr he)
          (fun _ => hstart) hgrants
      exact ih (fun e he => h e (mem_cons_of_mem _ he)) _ hungranted hgrants
        fun n => htickets (n + 1)
  · intro hgrants n
    have hsplit : s.run events = (s.run (events.take n)).run (events.drop n) := by
      rw [RemoteIoPermitGovernor.run, RemoteIoPermitGovernor.run, RemoteIoPermitGovernor.run,
        ← foldl_append, take_append_drop]
    have hprefix : (s.run (events.take n)).grants = [] := by
      rw [hsplit] at hgrants
      exact prefix_nil.mp (hgrants ▸ grants_prefix_run)
    exact (run_invariant (I := fun l => l.grants = [] → l.Ungranted)
      (fun _ _ hl hmove => hmove.ungranted hl) (fun e he => h e (mem_of_mem_take he))
      (fun _ => hstart) hprefix).toTickets

/-- A request for one unit, when nothing goes wrong. -/
def plainAcquire : IoEvent Unit := .acquire () 1 id (some fun _ => {}) (some fun _ => {}) none true

/-- A request that is queued while no batch of grants can be allocated, one that is rejected, and
the cancellation of the first one. -/
def ungrantedEvents : List (IoEvent Unit) :=
  [.acquire () 1 id (some fun _ => {}) none none true, .acquire () 1 id none none none true,
    .cancel 0 true none none]

/-- Nothing is granted, and both waiters give their tickets back. -/
theorem permit_tickets_held_ungranted :
    (∀ n, ((initial Unit 1 1 0).run (ungrantedEvents.take n)).ledger.Tickets) ∧
      ((initial Unit 1 1 0).run (ungrantedEvents.take 2)).waiting.length = 1 ∧
      ((initial Unit 1 1 0).run ungrantedEvents).closed.length = 2 := by
  refine ⟨(permit_tickets_held_iff 1 1 0 ungrantedEvents ?_).mpr rfl, rfl, rfl⟩
  simp [ungrantedEvents, IoEvent.Answer, GrantRounds.Answer]

/-- One request is granted, and its ticket is retired: the granted waiter holds none. -/
theorem permit_ticket_retired_at_grant :
    ¬ ((initial Unit 1 1 0).run [plainAcquire]).ledger.Tickets := by
  intro h
  exact absurd rfl (h.granted _ mem_cons_self)

end SchemaSanitizer
