/-
SchemaSanitizer/PermitScheduling.lean

Which waiters the permit governor grants.

The index of weights is exact if it has every operation with waiters in the bucket of
its weight, and nothing else (`WeightIndex.Exact`).  From an exact index the search
finds a waiter whenever some operation can go on, and leaves an exact index, so that
`grantReady` ends only when nobody fits.  A change of the capacity makes the index
inexact, and then it may end too early.
-/
import SchemaSanitizer.PermitAccounting

namespace SchemaSanitizer

open RemoteIoPermitGovernor List Function

variable {Op : Type} [DecidableEq Op]

variable {α : Type} {l : List α} {a : α}

theorem mem_insertLast [DecidableEq α] {b : α} : b ∈ insertLast l a ↔ b ∈ l ∨ b = a := by
  rw [insertLast]
  split
  · exact ⟨.inl, fun h => h.elim id fun heq => heq ▸ ‹_›⟩
  · simp

theorem nodup_insertLast [DecidableEq α] (h : l.Nodup) (a : α) : (insertLast l a).Nodup := by
  rw [insertLast]
  split
  · exact h
  · rw [← concat_eq_append]
    exact h.concat ‹_›

/-! ### Exact indexes -/

variable {weight : Nat} {order : List Nat} {bucket : List Op}

namespace WeightIndex

variable {ix : WeightIndex Op} {weightOf : Op → Option Nat} {apart : Nat → Prop}

/-- The index has the operations by their weights, the weights of `apart` excepted, which
are not in the order of turns. -/
structure Exact (weightOf : Op → Option Nat) (apart : Nat → Prop) (ix : WeightIndex Op) : Prop where
  weights : ∀ op, ix.operationWeights op = weightOf op
  buckets : ∀ op weight, op ∈ ix.weightBuckets weight ↔ weightOf op = some weight
  nodup : ∀ weight, (ix.weightBuckets weight).Nodup
  order : ∀ weight, ix.weightBuckets weight ≠ [] → ¬ apart weight → weight ∈ ix.weightOrder

omit [DecidableEq Op] in
theorem requeue_buckets (ix : WeightIndex Op) (weight : Nat) :
    (ix.requeue weight).weightBuckets = ix.weightBuckets := by
  rw [WeightIndex.requeue]
  split <;> rfl

omit [DecidableEq Op] in
/-- A weight that is put at the end comes after the others. -/
theorem mem_requeue_take {w n : Nat} (h : w ∈ ix.weightOrder.take n) (weight : Nat) :
    w ∈ (ix.requeue weight).weightOrder.take n := by
  rw [WeightIndex.requeue]
  split
  · exact h
  show w ∈ (insertLast ix.weightOrder weight).take n
  rw [insertLast]
  split
  · exact h
  · rw [take_append]
    exact mem_append_left _ h

omit [DecidableEq Op] in
theorem Exact.requeue (h : ix.Exact weightOf (· = weight)) :
    (ix.requeue weight).Exact weightOf fun _ => False := by
  rw [WeightIndex.requeue]
  split
  · rename_i hempty
    refine ⟨h.weights, h.buckets, h.nodup, fun w hw _ => h.order w hw ?_⟩
    rintro rfl
    exact hw hempty
  · refine ⟨h.weights, h.buckets, h.nodup, fun w hw _ => mem_insertLast.mpr ?_⟩
    rcases eq_or_ne w weight with rfl | hne
    · exact .inr rfl
    · exact .inl (h.order w hw hne)

/-- The first operation of the first weight is taken out of the index. -/
theorem Exact.pop {op : Op} (h : ix.Exact weightOf fun _ => False)
    (horder : ix.weightOrder = weight :: order) (hbucket : ix.weightBuckets weight = op :: bucket) :
    Exact (update weightOf op none) (· = weight)
      { weightBuckets := update ix.weightBuckets weight bucket
        weightOrder := order
        operationWeights := update ix.operationWeights op none } := by
  have hnodup := h.nodup weight
  rw [hbucket] at hnodup
  obtain ⟨hop, hnodup⟩ := nodup_cons.mp hnodup
  have hweight : weightOf op = some weight := (h.buckets op weight).mp (by simp [hbucket])
  refine ⟨fun op' => ?_, fun op' w => ?_, fun w => ?_, fun w hw hne => ?_⟩ <;> dsimp only at *
  · rcases eq_or_ne op' op with rfl | hne
    · rw [update_self, update_self]
    · rw [update_of_ne hne, update_of_ne hne, h.weights]
  · have hmem := h.buckets op' w
    rcases eq_or_ne w weight with rfl | hw <;> rcases eq_or_ne op' op with rfl | hne
    · simp [hop]
    · rw [hbucket, mem_cons, or_iff_right hne] at hmem
      simpa [update_of_ne hne] using hmem
    · rw [update_of_ne hw, hmem, hweight]
      simp [hw.symm]
    · rwa [update_of_ne hw, update_of_ne hne]
  · rcases eq_or_ne w weight with rfl | hw
    · rwa [update_self]
    · rw [update_of_ne hw]
      exact h.nodup w
  · rw [update_of_ne hne] at hw
    have hmem := h.order w hw id
    rw [horder, mem_cons, or_iff_right hne] at hmem
    exact hmem

/-- The first operation of the first weight goes to the end of its bucket, and the weight
to the end of the order. -/
theorem Exact.rotate {op : Op} (h : ix.Exact weightOf fun _ => False)
    (horder : ix.weightOrder = weight :: order) (hbucket : ix.weightBuckets weight = op :: bucket) :
    (WeightIndex.requeue
      { ix with
        weightBuckets := update ix.weightBuckets weight (insertLast bucket op)
        weightOrder := order } weight).Exact weightOf fun _ => False := by
  have hnodup := h.nodup weight
  rw [hbucket] at hnodup
  obtain ⟨hop, hnodup⟩ := nodup_cons.mp hnodup
  refine Exact.requeue ⟨h.weights, fun op' w => ?_, fun w => ?_, fun w hw hne =>
    ?_⟩ <;> dsimp only at *
  · have hmem := h.buckets op' w
    rcases eq_or_ne w weight with rfl | hw
    · rw [hbucket, mem_cons, or_comm] at hmem
      rwa [update_self, mem_insertLast]
    · rwa [update_of_ne hw]
  · rcases eq_or_ne w weight with rfl | hw
    · rw [update_self]
      exact nodup_insertLast hnodup op
    · rw [update_of_ne hw]
      exact h.nodup w
  · rw [update_of_ne hne] at hw
    have hmem := h.order w hw id
    rw [horder, mem_cons, or_iff_right hne] at hmem
    exact hmem

/-- Removing an operation leaves the index exact for the others. -/
theorem Exact.remove (h : ix.Exact weightOf apart) (op : Op) :
    (ix.removeOperationWeight op).Exact (update weightOf op none) apart := by
  rw [WeightIndex.removeOperationWeight, h.weights op]
  cases hop : weightOf op with
  | none =>
    have hsame : update weightOf op none = weightOf := by rw [← hop, update_eq_self]
    rw [hsame]
    exact h
  | some weight =>
    refine ⟨fun op' => ?_, fun op' w => ?_, fun w => ?_, fun w hw hapart => ?_⟩ <;> dsimp only at *
    · rcases eq_or_ne op' op with rfl | hne
      · rw [update_self, update_self]
      · rw [update_of_ne hne, update_of_ne hne, h.weights]
    · have hmem := h.buckets op' w
      rcases eq_or_ne w weight with rfl | hw
      · rw [update_self, (h.nodup w).mem_erase_iff, hmem]
        rcases eq_or_ne op' op with rfl | hne
        · simp
        · simp [hne]
      · rw [update_of_ne hw, hmem]
        rcases eq_or_ne op' op with rfl | hne
        · simp [hop, hw.symm]
        · rw [update_of_ne hne]
    · rcases eq_or_ne w weight with rfl | hw
      · rw [update_self]
        exact (h.nodup w).erase op
      · rw [update_of_ne hw]
        exact h.nodup w
    · rcases eq_or_ne w weight with rfl | hne
      · rw [update_self] at hw
        rw [if_neg fun hempty => hw hempty.2]
        exact h.order w (fun hnil => hw (by rw [hnil, erase_nil])) hapart
      · rw [update_of_ne hne] at hw
        have hmem := h.order w hw hapart
        split
        · exact (mem_erase_of_ne hne).mpr hmem
        · exact hmem

/-- An operation that is in no bucket goes into the one of its weight. -/
theorem Exact.publish {op : Op} (h : ix.Exact weightOf apart) (hop : weightOf op = none)
    (weight : Nat) :
    (ix.publish op weight).Exact (update weightOf op (some weight)) apart := by
  have hnot : ∀ w, op ∉ ix.weightBuckets w := fun w hw => by
    rw [(h.buckets op w).mp hw] at hop
    cases hop
  refine ⟨fun op' => ?_, fun op' w => ?_, fun w => ?_, fun w hw hapart => ?_⟩
  · rcases eq_or_ne op' op with rfl | hne
    · simp [WeightIndex.publish]
    · simp [WeightIndex.publish, hne, h.weights]
  · have hmem := h.buckets op' w
    show op' ∈ update ix.weightBuckets weight _ w ↔ _
    rcases eq_or_ne w weight with rfl | hw <;> rcases eq_or_ne op' op with rfl | hne
    · simp [mem_insertLast]
    · simp [mem_insertLast, hne, hmem]
    · simp [hw, hw.symm, hnot]
    · simp [hw, hne, hmem]
  · show (update ix.weightBuckets weight _ w).Nodup
    rcases eq_or_ne w weight with rfl | hw
    · rw [update_self]
      exact nodup_insertLast (h.nodup w) op
    · rw [update_of_ne hw]
      exact h.nodup w
  · have hw' : update ix.weightBuckets weight _ w ≠ [] := hw
    show w ∈ if ix.weightBuckets weight = [] then insertLast ix.weightOrder weight else
      ix.weightOrder
    rcases eq_or_ne w weight with rfl | hne
    · split
      · exact mem_insertLast.mpr (.inr rfl)
      · exact h.order w ‹_› hapart
    · rw [update_of_ne hne] at hw'
      have hmem := h.order w hw' hapart
      split
      · exact mem_insertLast.mpr (.inl hmem)
      · exact hmem

end WeightIndex

/-! ### The search from an exact index -/

namespace RemoteIoPermitGovernor

variable {s : RemoteIoPermitGovernor Op} {available : Nat} {round : GrantRound Op}
  {waiter : IoWaiter Op}

/-- The weight with which an operation can go on. -/
def weightOf (s : RemoteIoPermitGovernor Op) (op : Op) : Option Nat :=
  s.operationBucketWeight (s.operationWaiters op)

theorem foldl_min_le (f : α → Nat) (l : List α) (a b : Nat) :
    l.foldl (fun m x => min m (f x)) a ≤ b ↔ a ≤ b ∨ ∃ x ∈ l, f x ≤ b := by
  induction l generalizing a with
  | nil => simp
  | cons x l ih => simp [ih, or_assoc]

omit [DecidableEq Op] in
theorem operationBucketWeight_le {head : IoWaiter Op} {rest : List (IoWaiter Op)}
    (h : s.operationBucketWeight (head :: rest) = some weight) :
    weight ≤ s.effectiveWeight head := by
  rw [operationBucketWeight] at h
  split at h
  · cases h
    exact le_rfl
  · cases h
    exact (foldl_min_le _ _ _ _).mpr (.inl le_rfl)

omit [DecidableEq Op] in
/-- A queue whose bucket weight fits has a candidate. -/
theorem operationCandidate_of_le {queue : List (IoWaiter Op)}
    (h : s.operationBucketWeight queue = some weight) (hle : weight ≤ available) :
    ∃ c, s.operationCandidate available queue = some c := by
  cases queue with
  | nil => cases h
  | cons head rest =>
    rw [operationBucketWeight] at h
    rw [operationCandidate]
    by_cases hfits : s.effectiveWeight head ≤ available
    · exact ⟨_, if_pos hfits⟩
    rw [if_neg hfits]
    split at h
    · cases h
      exact absurd hle hfits
    · rename_i hbypass
      cases h
      rw [if_neg hbypass]
      obtain ⟨w, hw, hle⟩ := ((foldl_min_le _ _ _ _).mp hle).resolve_left hfits
      cases hfind : (rest.take maxLocalBypassScan).find? fun w =>
        s.effectiveWeight w ≤ available with
      | none => exact absurd hle (by simpa using find?_eq_none.mp hfind w hw)
      | some c => exact ⟨_, rfl⟩

theorem filter_erase_of_neg [DecidableEq α] {p : α → Bool} (ha : p a = false) (l : List α) :
    (l.erase a).filter p = l.filter p := by
  rw [← erase_filter, erase_of_not_mem (by simp [ha])]

theorem operationWaiters_queuesWithout {op : Op} (hop : waiter.operationId ≠ op) (bypassed : Bool) :
    (s.queuesWithout waiter bypassed).filter (fun w => w.operationId = op) =
    s.operationWaiters op := by
  have hhead : ((s.operationWaiters waiter.operationId).headD waiter).operationId ≠ op := by
    cases hq : s.operationWaiters waiter.operationId with
    | nil => exact hop
    | cons head rest =>
      have hmem : head ∈ s.operationWaiters waiter.operationId := by rw [hq]; exact mem_cons_self
      rw [headD_cons, of_decide_eq_true (mem_filter.mp hmem).2]
      exact hop
  rw [queuesWithout, filter_map]
  have hsame : ∀ w ∈ (s.waiting.erase waiter).filter (fun w => w.operationId = op),
      (if bypassed ∧ w = (s.operationWaiters waiter.operationId).headD waiter then
        { w with bypasses := w.bypasses + 1 } else w) = w := by
    intro w hw
    refine if_neg ?_
    rintro ⟨-, rfl⟩
    exact hhead (of_decide_eq_true (mem_filter.mp hw).2)
  have hkeep : ((fun w : IoWaiter Op => decide (w.operationId = op)) ∘ fun w =>
      if bypassed ∧ w = (s.operationWaiters waiter.operationId).headD waiter then
        { w with bypasses := w.bypasses + 1 } else w) = fun w => decide (w.operationId = op) := by
    funext w
    show decide ((ite _ _ _ : IoWaiter Op).operationId = op) = _
    split <;> rfl
  rw [hkeep, map_congr_left hsame, map_id']
  exact filter_erase_of_neg (p := fun w => decide (w.operationId = op))
    (decide_eq_false hop) s.waiting

theorem index_refreshOperationWeight (s : RemoteIoPermitGovernor Op) (op : Op) :
    (s.refreshOperationWeight op).index = (s.weightOf op).elim (s.index.removeOperationWeight op)
      ((s.index.removeOperationWeight op).publish op) := by
  rw [refreshOperationWeight, weightOf]
  cases s.operationBucketWeight (s.operationWaiters op) <;> rfl

/-- A refresh repairs the index at one operation. -/
theorem exact_refreshOperationWeight {f : Op → Option Nat} {op : Op} {apart : Nat → Prop}
    (h : s.index.Exact f apart) (hf : ∀ op', op' ≠ op → f op' = s.weightOf op') :
    (s.refreshOperationWeight op).index.Exact s.weightOf apart := by
  have hweight : update f op (s.weightOf op) = s.weightOf := by
    funext op'
    rcases eq_or_ne op' op with rfl | hne
    · rw [update_self]
    · rw [update_of_ne hne, hf op' hne]
  have hremove := h.remove op
  rw [← hweight, index_refreshOperationWeight]
  cases s.weightOf op with
  | none => exact hremove
  | some weight =>
    have hpublish := hremove.publish (update_self op none f) weight
    rwa [update_idem] at hpublish

/-- Retiring a waiter from the first bucket keeps the index exact. -/
theorem exact_retireFromQueue (h : s.index.Exact s.weightOf fun _ => False)
    (horder : s.index.weightOrder = weight :: order)
    (hbucket : s.index.weightBuckets weight = waiter.operationId :: bucket)
    (hdamages : round.damages = none) (bypassed : Bool) :
    let s' := (retireFromQueue
      { s with index := { s.index with
        weightOrder := order
        weightBuckets := update s.index.weightBuckets weight bucket } }
      round weight waiter bypassed).1
    s'.index.Exact s'.weightOf fun _ => False := by
  rw [retireFromQueue, hdamages]
  have hqueues : ∀ op, op ≠ waiter.operationId →
      update s.weightOf waiter.operationId none op = s.operationBucketWeight
        ((s.queuesWithout waiter bypassed).filter fun w => w.operationId = op) := by
    intro op hop
    rw [update_of_ne hop, operationWaiters_queuesWithout hop.symm]
    rfl
  have hrefresh := exact_refreshOperationWeight
    (s := { s with
      waiting := s.queuesWithout waiter bypassed
      index := {
        weightOrder := order
        weightBuckets := update s.index.weightBuckets weight bucket
        operationWeights := update s.index.operationWeights waiter.operationId none } })
    (h.pop horder hbucket) hqueues
  exact hrefresh.requeue

/-- **The search from an exact index** grants, or finds that no weight fits. -/
theorem takeCandidate_exact (hdamages : round.damages = none) (hcount : s.waitingCount ≠ 0)
    (weights : Nat) : ∀ {ix : WeightIndex Op}, ix.Exact s.weightOf (fun _ => False) →
    (∃ index, takeCandidate available round weights { s with index := ix } =
      ({ s with index }, none) ∧
      index.Exact s.weightOf (fun _ => False) ∧
      ∀ weight ∈ ix.weightOrder.take weights, ix.weightBuckets weight ≠ [] → available < weight) ∨
    ∃ s' waiter, takeCandidate available round weights { s with index := ix } = (s', some waiter) ∧
      s'.index.Exact s'.weightOf fun _ => False := by
  induction weights with
  | zero => exact fun h => .inl ⟨_, rfl, h, by simp⟩
  | succ weights ih =>
    intro ix h
    rw [takeCandidate]
    dsimp only
    split
    · rename_i horder
      exact .inl ⟨_, rfl, h, by simp [horder]⟩
    rename_i weight order horder
    split
    · rename_i hempty
      have hrest : WeightIndex.Exact s.weightOf (fun _ => False)
        { ix with weightOrder := order } := by
        refine ⟨h.weights, h.buckets, h.nodup, fun w hw _ => ?_⟩
        have hmem := h.order w hw id
        rw [horder] at hmem
        exact (mem_cons.mp hmem).resolve_left fun heq => hw (heq ▸ hempty)
      rcases ih hrest with ⟨index, htake, hindex, hall⟩ | hgrant
      · refine .inl ⟨index, htake, hindex, ?_⟩
        rw [horder, take_succ_cons, forall_mem_cons]
        exact ⟨fun hw => absurd hempty hw, hall⟩
      · exact .inr hgrant
    rename_i op bucket hbucket
    have hweight : s.operationBucketWeight (s.operationWaiters op) = some weight :=
      (h.buckets op weight).mp (by simp [hbucket])
    split
    · rename_i hnone
      exact absurd (hnone.symm.trans hweight) (by simp)
    rename_i current hcurrent
    obtain rfl : current = weight := Option.some.inj (hcurrent.symm.trans hweight)
    rw [if_neg (not_not.mpr rfl)]
    by_cases hfits : available < current
    · rw [if_pos hfits]
      dsimp only
      rw [update_idem]
      rcases ih (h.rotate horder hbucket) with ⟨index, htake, hindex, hall⟩ | hgrant
      · refine .inl ⟨index, htake, hindex, ?_⟩
        rw [horder, take_succ_cons, forall_mem_cons]
        refine ⟨fun _ => hfits, fun w hw hne => ?_⟩
        rcases eq_or_ne w current with rfl | hw'
        · exact hfits
        · refine hall w (WeightIndex.mem_requeue_take hw current) ?_
          rw [WeightIndex.requeue_buckets]
          dsimp only
          rwa [update_of_ne hw']
      · exact .inr hgrant
    · rw [if_neg hfits]
      obtain ⟨⟨waiter, bypassed⟩, hfound⟩ :=
        operationCandidate_of_le hweight (Nat.le_of_not_lt hfits)
      split
      · rename_i hnone
        exact absurd (hnone.symm.trans hfound) (by simp)
      rename_i waiter' bypassed' hfound'
      have hmem := (operationCandidate_mem hfound').1
      have hop : waiter'.operationId = op := of_decide_eq_true (mem_filter.mp hmem).2
      subst hop
      rw [if_neg hcount]
      exact .inr ⟨_, _, rfl,
        exact_retireFromQueue (s := { s with index := ix }) h horder hbucket hdamages _⟩

/-! ### Undisturbed runs -/

end RemoteIoPermitGovernor

/-- Rounds without an internal failure. -/
def GrantRounds.Faultless (rounds : GrantRounds Op) : Prop :=
  ∃ r, rounds = some r ∧ ∀ n, (r n).stops = none ∧ (r n).damages = none

/-- A section without an internal failure. -/
def IoEvent.Faultless : IoEvent Op → Prop
  | .acquire _ _ _ before after enqueueFails _ =>
    GrantRounds.Faultless before ∧ GrantRounds.Faultless after ∧ enqueueFails = none
  | .cancel _ _ damages rounds => damages = none ∧ GrantRounds.Faultless rounds
  | .deliver _ _ _ rounds | .poll _ rounds | .releaseResource _ rounds | .configure _ _ rounds
  | .register _ _ rounds | .releaseRegistration _ rounds => GrantRounds.Faultless rounds
  | .retirePermit _ _ | .drain _ _ | .closeAdmission => True

namespace RemoteIoPermitGovernor

variable {s : RemoteIoPermitGovernor Op} {round : GrantRound Op} {capacity : Nat}
  {rounds : Nat → GrantRound Op}

/-- The pressure capacity that a section goes on with. -/
def pressureIn (s : RemoteIoPermitGovernor Op) : IoEvent Op → Nat
  | .acquire _ weight scale _ _ _ _ =>
    if weight = 0 ∨ s.admissionClosed then s.pressureCapacity else max 1 (scale s.requestedCapacity)
  | .configure requested scale _ =>
    if requested = 0 ∨ s.admissionClosed then s.pressureCapacity
    else max 1 (scale (max s.requestedCapacity (max s.baseCapacity requested)))
  | .register requested scale _ =>
    if requested = 0 ∨ s.admissionClosed ∨
        s.maxCapacityRegistrations ≤ s.registrations.length then s.pressureCapacity
    else max 1 (scale (max s.requestedCapacity requested))
  | .releaseRegistration token _ =>
    if s.registrations.any fun r => r.1 = token then
      max 1 (s.pressureScale (requestedCapacityFromRegistrations
        { s with registrations := s.registrations.filter fun r => r.1 ≠ token }))
    else s.pressureCapacity
  | _ => s.pressureCapacity

/-- A pressure capacity that is the present one, or that comes while nobody waits and is not less
than what is in use. -/
def Harmless (s : RemoteIoPermitGovernor Op) (pressure : Nat) : Prop :=
  pressure = s.pressureCapacity ∨ s.waiting = [] ∧ s.inUse ≤ pressure

/-- A section without an internal failure and without a change of the capacity that does harm. -/
def Undisturbed (s : RemoteIoPermitGovernor Op) (e : IoEvent Op) : Prop :=
  e.Faultless ∧ s.Harmless (s.pressureIn e)

/-- A run of such sections. -/
def UndisturbedRun : RemoteIoPermitGovernor Op → List (IoEvent Op) → Prop
  | _, [] => True
  | s, e :: events => s.Undisturbed e ∧ (s.step e).UndisturbedRun events

/-- Nothing is left to do: the oldest waiter of no operation fits. -/
def Conserved (s : RemoteIoPermitGovernor Op) : Prop :=
  ∀ op, ∀ head ∈ (s.operationWaiters op).head?, s.capacity - s.inUse < s.effectiveWeight head

/-- The capacity is that of the pressure, and the index is exact for it. -/
structure Settled (s : RemoteIoPermitGovernor Op) (total : Nat) : Prop where
  capacity : s.capacity = total
  pressure : s.pressureCapacity = total
  used : s.inUse ≤ total
  counted : s.waitingCount = s.waiting.length
  index : s.index.Exact s.weightOf fun _ => False

omit [DecidableEq Op] in
theorem effectiveWeight_pos (s : RemoteIoPermitGovernor Op) (w : IoWaiter Op) :
    0 < s.effectiveWeight w :=
  Nat.lt_of_lt_of_le Nat.zero_lt_one (Nat.le_max_left 1 _)

theorem Settled.conserved_of_min (h : s.Settled capacity)
    (hmin : min s.waitingCount (s.capacity - s.inUse) = 0) : s.Conserved := by
  intro op head hhead
  have hmem : head ∈ s.waiting := mem_of_mem_filter (mem_of_mem_head? hhead)
  have hcount : 0 < s.waitingCount := by
    rw [h.counted]
    exact length_pos_of_mem hmem
  have hpos := s.effectiveWeight_pos head
  omega

theorem Settled.applyCachedCapacity_eq (h : s.Settled capacity) : s.applyCachedCapacity = s := by
  have hsame : (if s.pressureCapacity < s.inUse then s.inUse else s.pressureCapacity) =
    s.capacity := by
    rw [h.capacity, h.pressure, if_neg (Nat.not_lt.mpr h.used)]
  rw [applyCachedCapacity, hsame, bne_self_eq_false, Bool.or_false]

/-- An exact index leaves no operation to recover. -/
theorem recoverUnindexedOperation_eq_none (h : s.index.Exact s.weightOf fun _ => False) :
    s.recoverUnindexedOperation = none := by
  rw [recoverUnindexedOperation, Option.map_eq_none_iff, find?_eq_none]
  intro op _
  simp only [decide_eq_true_eq, not_and, not_not]
  intro hqueue
  obtain ⟨weight, hweight⟩ : ∃ weight, s.weightOf op = some weight := by
    rw [weightOf]
    cases hq : s.operationWaiters op with
    | nil => exact absurd hq hqueue
    | cons head rest =>
      rw [operationBucketWeight]
      split <;> exact ⟨_, rfl⟩
  have hmem := (h.buckets op weight).mpr hweight
  have horder := h.order weight (ne_nil_of_mem hmem) id
  simp [WeightIndex.isIndexed, h.weights, hweight, hmem, horder]

/-- If no indexed weight fits, no waiter could be granted. -/
theorem conserved_of_weights (h : s.index.Exact s.weightOf fun _ => False)
    (hall : ∀ weight ∈ s.index.weightOrder, s.index.weightBuckets weight ≠ [] →
      s.capacity - s.inUse < weight) : s.Conserved := by
  intro op head hhead
  cases hq : s.operationWaiters op with
  | nil => simp [hq] at hhead
  | cons head' rest =>
    obtain rfl : head' = head := by simpa [hq] using hhead
    obtain ⟨weight, hweight⟩ : ∃ weight, s.operationBucketWeight (head' :: rest) = some weight := by
      rw [operationBucketWeight]
      split <;> exact ⟨_, rfl⟩
    have hmem := (h.buckets op weight).mpr ((congrArg s.operationBucketWeight hq).trans hweight)
    have hne := ne_nil_of_mem hmem
    exact Nat.lt_of_lt_of_le (hall weight (h.order weight hne id) hne)
      (operationBucketWeight_le hweight)

/-- A grant keeps the governor settled and uses up one of the batch. -/
theorem Settled.grant (h : s.Settled capacity) {index : WeightIndex Op}
    {waiter : IoWaiter Op} {bypassed : Bool}
    (hfound : s.operationCandidate (s.capacity - s.inUse) (s.operationWaiters waiter.operationId) =
      some (waiter, bypassed))
    (hindex : let s' := (retireFromQueue { s with index } round weight waiter bypassed).1
      s'.index.Exact s'.weightOf fun _ => False) :
    let s' := retireFromQueue { s with index } round weight waiter bypassed
    (s'.1.grant s'.2).Settled capacity ∧ ∀ batch,
    min s.waitingCount (s.capacity - s.inUse) ≤ batch →
      min (s'.1.grant s'.2).waitingCount (capacity - (s'.1.grant s'.2).inUse) ≤ batch - 1 := by
  obtain ⟨_, _, _, hstate⟩ :=
    retireFromQueue_fst { s with index } round weight waiter bypassed
  obtain ⟨hmem, hfits⟩ := operationCandidate_mem hfound
  have hpos := s.effectiveWeight_pos waiter
  have hused := h.used
  have hcapacity := h.capacity
  dsimp only at hindex ⊢
  rw [hstate] at hindex ⊢
  refine ⟨{ h with used := ?_, counted := ?_, index := hindex }, fun batch hbatch => ?_⟩
  · show s.inUse + s.effectiveWeight waiter ≤ capacity
    omega
  · show s.waitingCount - 1 = (s.queuesWithout waiter bypassed).length
    rw [queuesWithout, length_map, length_erase_of_mem (mem_of_mem_filter hmem), h.counted]
  · show min (s.waitingCount - 1) (capacity - (s.inUse + s.effectiveWeight waiter)) ≤ batch - 1
    omega

/-- **The loop of grants** ends when nobody fits. -/
theorem Settled.grantLoop {fuel batch : Nat} (h : s.Settled capacity)
    (hrounds : ∀ n, (rounds n).stops = none ∧ (rounds n).damages = none)
    (hbatch : min s.waitingCount (capacity - s.inUse) ≤ batch) (hfuel : batch < fuel) :
    (s.grantLoop fuel batch rounds).Settled capacity ∧
    (s.grantLoop fuel batch rounds).Conserved := by
  induction fuel generalizing batch rounds s with
  | zero => omega
  | succ fuel ih =>
    rw [← h.capacity] at hbatch
    rw [RemoteIoPermitGovernor.grantLoop]
    split
    · exact ⟨h, h.conserved_of_min (by omega)⟩
    rename_i hwork
    rw [not_or] at hwork
    rw [h.applyCachedCapacity_eq]
    dsimp only
    split
    · exact ⟨h, h.conserved_of_min (by omega)⟩
    rw [(hrounds 0).1]
    dsimp only
    rcases takeCandidate_exact (hrounds 0).2 hwork.1 s.index.weightOrder.length h.index with
      ⟨index, htake, hindex, hall⟩ | ⟨s', waiter, htake, hindex⟩
    · have hnone := recoverUnindexedOperation_eq_none (s := { s with index }) hindex
      rw [show takeCandidate (s.capacity - s.inUse) (rounds 0) s.index.weightOrder.length s =
        _ from htake]
      dsimp only
      rw [hnone]
      rw [take_length] at hall
      have hconserved : s.Conserved := conserved_of_weights h.index hall
      exact ⟨{ h with index := hindex }, hconserved⟩
    · rcases takeCandidate_cases (s.capacity - s.inUse) (rounds 0) s.index.weightOrder.length s with
        ⟨index, hsearch⟩ | ⟨index, weight, waiter, bypassed, -, hfound, hsearch⟩
      · exact absurd (hsearch.symm.trans htake) (by simp)
      rw [show takeCandidate _ _ _ { s with index := s.index } = _ from hsearch] at htake
      obtain ⟨rfl, -⟩ := Prod.mk.inj htake
      obtain ⟨hsettled, hnext⟩ := h.grant hfound hindex
      rw [hsearch]
      exact ih hsettled (fun n => hrounds (n + 1)) (hnext batch hbatch) (by omega)

/-- Settled, and nothing is left to do. -/
def Quiet (s : RemoteIoPermitGovernor Op) (total : Nat) : Prop := s.Settled total ∧ s.Conserved

section

variable (h : s.Settled capacity)

include h

theorem Settled.repairScheduler : s.repairScheduler.Settled capacity := by
  rw [RemoteIoPermitGovernor.repairScheduler]
  split
  · exact { h with }
  · exact h

theorem Settled.grantReady (hrounds : ∀ n, (rounds n).stops = none ∧ (rounds n).damages = none) :
    (s.grantReady rounds).Quiet capacity := by
  have hrepair := h.repairScheduler
  refine hrepair.grantLoop hrounds ?_ ?_
  · rw [hrepair.capacity]
  · exact Nat.lt_of_lt_of_le (Nat.lt_succ_self _) (Nat.le_mul_of_pos_right _ (Nat.succ_pos _))

theorem Settled.postCommitReschedule {rounds : GrantRounds Op} (hrounds : rounds.Faultless) :
    (s.postCommitReschedule rounds).Quiet capacity := by
  obtain ⟨r, rfl, hr⟩ := hrounds
  rw [RemoteIoPermitGovernor.postCommitReschedule, h.applyCachedCapacity_eq]
  exact h.repairScheduler.grantReady hr

theorem Settled.exact_waiting (waiting : List (IoWaiter Op)) (op : Op)
    (hsame : ∀ op', op' ≠ op → waiting.filter (fun w => w.operationId = op') =
      s.operationWaiters op') :
    WeightIndex.Exact (weightOf { s with waiting }) (fun _ => False)
      (refreshOperationWeight { s with waiting } op).index := by
  apply exact_refreshOperationWeight (f := s.weightOf)
  · exact h.index
  · intro op' hop
    exact congrArg s.operationBucketWeight (hsame op' hop).symm

theorem Settled.enqueueWaiter (op : Op) (weight : Nat) :
    (s.enqueueWaiter op weight).Settled capacity := by
  refine ⟨h.capacity, h.pressure, h.used, ?_, h.exact_waiting _ _ fun op' hop => ?_⟩
  · show s.waitingCount + 1 = (s.waiting ++ [_]).length
    rw [h.counted, length_append, length_singleton]
  · show (s.waiting ++ [_]).filter _ = _
    rw [filter_append, filter_singleton, decide_eq_false hop.symm, cond_false, append_nil]
    rfl

theorem Settled.removeWaiter {w : IoWaiter Op} (hw : w ∈ s.waiting) (retires : Bool) :
    (s.removeWaiter w retires none).Settled capacity := by
  have hindex := h.exact_waiting (s.waiting.erase w) w.operationId fun op hop =>
    filter_erase_of_neg (p := fun w => decide (w.operationId = op))
      (decide_eq_false hop.symm) s.waiting
  have hcount : s.waitingCount - 1 = (s.waiting.erase w).length := by
    rw [h.counted, length_erase_of_mem hw]
  rw [RemoteIoPermitGovernor.removeWaiter]
  split
  · exact { h with counted := hcount, index := hindex }
  · exact { h with counted := hcount, index := hindex }

/-- **A new capacity** while nobody waits: the index has nothing to say. -/
theorem Settled.recompute {pressure : Nat} (hpressure : s.Harmless pressure) :
    (applyCachedCapacity { s with pressureCapacity := pressure }).Settled pressure := by
  rcases hpressure with rfl | ⟨hnobody, hused⟩
  · rw [h.pressure]
    have hsame : Settled { s with pressureCapacity := capacity } capacity :=
      { h with pressure := rfl }
    rw [hsame.applyCachedCapacity_eq]
    exact hsame
  have hweights : ∀ s' : RemoteIoPermitGovernor Op, s'.waiting = [] →
    s'.weightOf = fun _ => none := by
    intro s' hs'
    funext op
    rw [weightOf, operationWaiters, hs']
    rfl
  have hindex := h.index
  rw [hweights s hnobody] at hindex
  have hcapacity : (if pressure < s.inUse then s.inUse else pressure) = pressure :=
    if_neg (Nat.not_lt.mpr hused)
  refine ⟨hcapacity, rfl, hused, h.counted, ?_⟩
  have hnobody' : (applyCachedCapacity { s with pressureCapacity := pressure }).waiting = [] :=
    hnobody
  rw [hweights _ hnobody']
  exact hindex

end

/-- An acquisition without faults leaves nothing grantable behind. -/
theorem Quiet.acquire (h : s.Quiet capacity) (op : Op) (weight : Nat) (scale : Nat → Nat)
    {before after : GrantRounds Op} (hbefore : before.Faultless) (hafter : after.Faultless)
    (retires : Bool)
    (hpressure : ¬ (weight = 0 ∨ s.admissionClosed = true) →
      s.Harmless (max 1 (scale s.requestedCapacity))) :
    ∃ total, (s.acquire op weight scale before after none retires).Quiet total := by
  obtain ⟨before, rfl, hbefore⟩ := hbefore
  obtain ⟨after, rfl, hafter⟩ := hafter
  have hclose : ∀ {s : RemoteIoPermitGovernor Op} {total} w, s.Quiet total →
      (s.close retires w).Quiet total :=
    fun w h => ⟨{ h.1 with }, h.2⟩
  rw [RemoteIoPermitGovernor.acquire]
  split
  · exact ⟨_, h⟩
  rename_i hweight
  dsimp only
  split
  · exact ⟨_, hclose _ h⟩
  rename_i hopened
  have hscaled : Settled { s with pressureScale := scale } capacity := { h.1 with }
  have hrecompute : (recomputeCapacity { s with pressureScale := scale }).Settled _ :=
    hscaled.recompute (hpressure (not_or.mpr ⟨hweight, hopened⟩))
  have hready := hrecompute.grantReady hbefore
  split
  · exact ⟨_, hclose _ hready⟩
  · exact ⟨_, (hready.1.enqueueWaiter op weight).grantReady hafter⟩

/-- A new capacity leaves nothing grantable behind. -/
theorem Quiet.configureCapacity (h : s.Quiet capacity) (requested : Nat) (scale : Nat → Nat)
    {rounds : GrantRounds Op} (hrounds : rounds.Faultless)
    (hpressure : ¬ (requested = 0 ∨ s.admissionClosed = true) →
      s.Harmless (max 1 (scale (max s.requestedCapacity (max s.baseCapacity requested))))) :
    ∃ total, (s.configureCapacity requested scale rounds).Quiet total := by
  obtain ⟨rounds, rfl, hrounds⟩ := hrounds
  rw [RemoteIoPermitGovernor.configureCapacity]
  split
  · exact ⟨_, h⟩
  rename_i hopened
  have hconfigured : Settled { s with
      pressureScale := scale
      baseCapacity := max s.baseCapacity requested
      requestedCapacity := max s.requestedCapacity (max s.baseCapacity requested) } capacity :=
    { h.1 with }
  exact ⟨_, (hconfigured.recompute (hpressure hopened)).grantReady hrounds⟩

/-- A registered capacity leaves nothing grantable behind. -/
theorem Quiet.registerCapacity (h : s.Quiet capacity) (requested : Nat) (scale : Nat → Nat)
    {rounds : GrantRounds Op} (hrounds : rounds.Faultless)
    (hpressure : ¬ (requested = 0 ∨ s.admissionClosed = true ∨
        s.maxCapacityRegistrations ≤ s.registrations.length) →
      s.Harmless (max 1 (scale (max s.requestedCapacity requested)))) :
    ∃ total, (s.registerCapacity requested scale rounds).Quiet total := by
  obtain ⟨rounds, rfl, hrounds⟩ := hrounds
  rw [RemoteIoPermitGovernor.registerCapacity]
  split
  · exact ⟨_, h⟩
  rename_i hopened
  dsimp only
  split
  · exact ⟨_, { h.1 with }, h.2⟩
  rename_i hroom
  rw [not_or] at hopened
  have hregistered : Settled { s with
      pressureScale := scale
      registrations := s.registrations ++ [(s.nextRegistrationToken + 1, requested)]
      nextRegistrationToken := s.nextRegistrationToken + 1
      requestedCapacity := max s.requestedCapacity requested } capacity := { h.1 with }
  exact ⟨_, (hregistered.recompute
    (hpressure (not_or.mpr ⟨hopened.1, not_or.mpr ⟨hopened.2, hroom⟩⟩))).grantReady hrounds⟩

theorem Quiet.releaseRegistration (h : s.Quiet capacity) (token : Nat) {rounds : GrantRounds Op}
    (hrounds : rounds.Faultless)
    (hpressure : s.Harmless (max 1 (s.pressureScale (requestedCapacityFromRegistrations
      { s with registrations := s.registrations.filter fun r => r.1 ≠ token })))) :
    ∃ total, (s.releaseRegistration token rounds).Quiet total := by
  obtain ⟨rounds, rfl, hrounds⟩ := hrounds
  have hreleased : Settled { s with
      registrations := s.registrations.filter fun r => r.1 ≠ token
      requestedCapacity := requestedCapacityFromRegistrations
        { s with registrations := s.registrations.filter fun r => r.1 ≠ token } } capacity :=
    { h.1 with }
  exact ⟨_, (hreleased.recompute hpressure).repairScheduler.grantReady hrounds⟩

theorem Quiet.reclaimGrantedWaiter (h : s.Quiet capacity) (w : IoWaiter Op) (retires : Bool)
    {rounds : GrantRounds Op} (hrounds : rounds.Faultless) :
    (s.reclaimGrantedWaiter w retires rounds).Quiet capacity := by
  rw [RemoteIoPermitGovernor.reclaimGrantedWaiter, returnInUse]
  dsimp only
  split <;> rename_i hreturn <;> split at hreturn <;> cases hreturn
  · exact ⟨{ h.1 with }, h.2⟩
  · have hreturned : Settled { s with
        granted := s.granted.erase w
        inUse := s.inUse - w.grantedWeight } capacity :=
      { h.1 with used := (Nat.sub_le _ _).trans h.1.used }
    rw [hreturned.applyCachedCapacity_eq]
    refine Settled.postCommitReschedule ?_ hrounds
    exact { hreturned with }

/-- **Undisturbed sections keep the governor quiet.** -/
theorem Quiet.step (h : s.Quiet capacity) {e : IoEvent Op} (he : s.Undisturbed e) :
    ∃ total, (s.step e).Quiet total := by
  obtain ⟨hfaultless, hpressure⟩ := he
  cases e with
  | acquire op weight scale before after enqueueFails retires =>
    obtain ⟨hbefore, hafter, rfl⟩ := hfaultless
    refine h.acquire op weight scale hbefore hafter retires fun hopened => ?_
    rwa [pressureIn, if_neg hopened] at hpressure
  | deliver waiter fails retires rounds =>
    refine ⟨capacity, ?_⟩
    rw [RemoteIoPermitGovernor.step]
    split
    · exact h
    rw [deliverWaiter]
    split
    · exact h.reclaimGrantedWaiter _ retires hfaultless
    · exact ⟨{ h.1 with }, h.2⟩
  | cancel waiter retires damages rounds =>
    obtain ⟨rfl, hrounds⟩ := hfaultless
    refine ⟨capacity, ?_⟩
    rw [RemoteIoPermitGovernor.step]
    split
    · rename_i w hfind
      exact (h.1.removeWaiter (mem_of_find?_eq_some hfind) retires).postCommitReschedule hrounds
    split
    · exact h.reclaimGrantedWaiter _ retires hrounds
    · exact h
  | poll waiter rounds =>
    refine ⟨capacity, ?_⟩
    rw [RemoteIoPermitGovernor.step]
    split
    · exact h.1.postCommitReschedule hfaultless
    · exact h
  | releaseResource lease rounds =>
    refine ⟨capacity, ?_⟩
    rw [RemoteIoPermitGovernor.step]
    split
    · exact h
    rw [RemoteIoPermitGovernor.releaseResource]
    split
    · exact h
    · refine Settled.postCommitReschedule ?_ hfaultless
      exact { h.1 with used := (Nat.sub_le _ _).trans h.1.used }
  | retirePermit lease retires =>
    refine ⟨capacity, ?_⟩
    rw [RemoteIoPermitGovernor.step]
    split
    · exact h
    rw [RemoteIoPermitGovernor.retirePermit]
    split
    · split
      · exact ⟨{ h.1 with }, h.2⟩
      · exact ⟨{ h.1 with }, h.2⟩
    · exact h
  | configure requested scale rounds =>
    refine h.configureCapacity requested scale hfaultless fun hopened => ?_
    rwa [pressureIn, if_neg hopened] at hpressure
  | register requested scale rounds =>
    refine h.registerCapacity requested scale hfaultless fun hopened => ?_
    rwa [pressureIn, if_neg hopened] at hpressure
  | releaseRegistration token rounds =>
    rw [RemoteIoPermitGovernor.step]
    split
    · rename_i hany
      rw [pressureIn, if_pos hany] at hpressure
      exact h.releaseRegistration token hfaultless hpressure
    · exact ⟨capacity, h⟩
  | drain | closeAdmission => exact ⟨capacity, { h.1 with }, h.2⟩

theorem Quiet.run (h : s.Quiet capacity) {events : List (IoEvent Op)}
    (hevents : s.UndisturbedRun events) : ∃ total, (s.run events).Quiet total := by
  induction events generalizing s capacity with
  | nil => exact ⟨capacity, h⟩
  | cons e events ih =>
    obtain ⟨total, hstep⟩ := h.step hevents.1
    exact ih hstep hevents.2

end RemoteIoPermitGovernor

theorem quiet_initial (capacity maxWaiters maxCapacityRegistrations : Nat) :
    (initial Op capacity maxWaiters maxCapacityRegistrations).Quiet capacity := by
  refine ⟨⟨rfl, rfl, Nat.zero_le _, rfl, ?_⟩, fun op head hhead => nomatch hhead⟩
  exact ⟨fun _ => rfl, by simp [initial, weightOf, operationWaiters, operationBucketWeight],
    fun _ => nodup_nil, fun _ hne => absurd rfl hne⟩

/-- **Permits conserve work** over every run that has no internal failure and changes the
capacity only while nobody waits: after each section, and whenever waiters are granted then, the
oldest waiter of no operation fits. -/
theorem permit_work_conserving (capacity maxWaiters maxCapacityRegistrations : Nat)
    (events : List (IoEvent Op))
    (hevents : (initial Op capacity maxWaiters maxCapacityRegistrations).UndisturbedRun events)
    (rounds : Nat → GrantRound Op)
    (hrounds : ∀ n, (rounds n).stops = none ∧ (rounds n).damages = none) :
    let s := (initial Op capacity maxWaiters maxCapacityRegistrations).run events
    s.Conserved ∧ (s.grantReady rounds).Conserved := by
  obtain ⟨total, hquiet⟩ := (quiet_initial capacity maxWaiters maxCapacityRegistrations).run hevents
  exact ⟨hquiet.2, (hquiet.1.grantReady hrounds).2⟩

/-- A request when nothing goes wrong. -/
def requestOf (op : Op) (weight : Nat) : IoEvent Op :=
  .acquire op weight id (some fun _ => {}) (some fun _ => {}) none true

omit [DecidableEq Op] in
theorem faultless_plain : GrantRounds.Faultless (some fun _ => ({} : GrantRound Op)) :=
  ⟨_, rfl, fun _ => ⟨rfl, rfl⟩⟩

omit [DecidableEq Op] in
theorem requestOf_faultless (op : Op) (weight : Nat) : (requestOf op weight).Faultless :=
  ⟨faultless_plain, faultless_plain, rfl⟩

/-- The capacity grows before anybody waits; then two requests compete for it. -/
theorem permit_work_conserving_two :
    ((initial Bool 4 8 8).run [.register 6 id (some fun _ => {}), requestOf false 5,
      requestOf true 4]).Conserved := by
  have hundisturbed : (initial Bool 4 8 8).UndisturbedRun
      [.register 6 id (some fun _ => {}), requestOf false 5, requestOf true 4] :=
    ⟨⟨faultless_plain, .inr ⟨rfl, by decide⟩⟩, ⟨requestOf_faultless _ _, .inl rfl⟩,
      ⟨requestOf_faultless _ _, .inl rfl⟩, trivial⟩
  exact (permit_work_conserving 4 8 8 _ hundisturbed (fun _ => {}) fun _ => ⟨rfl, rfl⟩).1

/-- While four units are in use, requests for eight and for four units wait under the
weight four.  When the capacity grows to eight, the search moves the first one to its new
weight and has no turn left for the second one, which fits. -/
theorem permit_left_waiting :
    ¬ ((initial (Fin 3) 4 8 8).run
      [requestOf 0 4, requestOf 1 8, requestOf 2 4,
        .register 8 id (some fun _ => {})]).Conserved := by
  intro h
  exact absurd (h 2 ⟨2, 2, 4, 0, 0, .held⟩ (by decide +kernel)) (by decide +kernel)

end SchemaSanitizer
