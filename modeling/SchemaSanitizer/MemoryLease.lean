/-
SchemaSanitizer/MemoryLease.lean

The leases of `CrossProcessMemoryLease`: how `resize` and `release` move one of them,
step by step, and what that means for the record of its process.

A call takes these steps, and between two of them other leases take theirs:

    resize, growth   read the ledger · update the document · set the ledger
    resize, shrink   read the ledger · set the ledger · write the document
    release          retire the lease · read the ledger · write the document

A shrink whose write fails sets the ledger back and writes the document again from the
ledger; a write that fails in turn is repeated at the start of the next call.

`MemoryLease.Consistent` says what a lease in the middle of a call may rely on as long
as the reservations of the other leases stay what they are, and `MemoryLease.held` is
the most that it holds before it writes the document the next time.  Every step keeps
the two (`advance_consistent`, `held_journaled`).  For
the leases of one process this gives `direct_le_recorded` if their calls do not
overlap.  If they do, the record may lose a reservation (`overlapping_growth`).
-/
import SchemaSanitizer.MemoryRegistry
import SchemaSanitizer.Lib.Runs

namespace SchemaSanitizer

open Lib Function

/-! ### One lease -/

/-- The calls of a lease. -/
inductive LeaseCall
  | resize (requested : Nat)
  | release
  deriving DecidableEq, Repr

/-- Why the document is written from the ledger, `_reconcile_journal_to_direct`. -/
inductive Reconciliation
  /-- `_journal_reconcile_required` was set when the call began. -/
  | before (call : LeaseCall)
  /-- The call has failed. -/
  | rollback
  /-- The lease is retired, `_journal_cleanup_pending`. -/
  | cleanup
  deriving DecidableEq, Repr

/-- Where a call is. -/
inductive LeasePhase
  | idle
  | started (call : LeaseCall)
  /-- A growth that has read the ledger. -/
  | growing (current directTotal requested : Nat)
  /-- A growth that has updated the document. -/
  | granted (requested : Nat)
  /-- A shrink that has read the ledger. -/
  | shrinking (current directTotal requested : Nat)
  /-- A shrink that has set the ledger. -/
  | lowered (current nextOwner : Nat)
  /-- A shrink that could not write the document. -/
  | undoing (current : Nat)
  | reconciling (reason : Reconciliation)
  /-- A reconciliation that has read the ledger. -/
  | writing (ownerTotal : Nat) (reason : Reconciliation)
  deriving DecidableEq, Repr

/-- A lease: its entry of the direct ledger, and the fields that its calls read.  A
retired lease has no entry, which counts as nothing. -/
structure MemoryLease where
  direct : Nat
  phase : LeasePhase
  reconcileRequired : Bool
  cleanupPending : Bool
  released : Bool
  deriving DecidableEq, Repr

namespace MemoryLease

/-- A new lease. -/
def new : MemoryLease := ⟨0, .idle, false, false, false⟩

/-- A call takes the lock of the lease and looks at its fields. -/
def call (call : LeaseCall) (lease : MemoryLease) : Option MemoryLease :=
  match lease.phase with
  | .idle =>
    if lease.released then some lease
    else if lease.cleanupPending then some { lease with phase := .reconciling .cleanup }
    else if lease.reconcileRequired then some { lease with phase := .reconciling (.before call) }
    else some { lease with phase := .started call }
  | _ => none

/-- A step that does not touch the document, when the ledger has `directTotal` in all. -/
def advance (directTotal : Nat) (lease : MemoryLease) : Option MemoryLease :=
  match lease.phase with
  | .started (.resize requested) =>
    if lease.direct ≤ requested then
      some { lease with phase := .growing lease.direct directTotal requested }
    else some { lease with phase := .shrinking lease.direct directTotal requested }
  | .started .release =>
    some { lease with direct := 0, cleanupPending := true, phase := .reconciling .cleanup }
  | .granted requested => some { lease with direct := requested, phase := .idle }
  | .shrinking current directTotal requested =>
    some { lease with
      direct := requested, phase := .lowered current (directTotal - current + requested) }
  | .undoing current => some { lease with direct := current, phase := .reconciling .rollback }
  | .reconciling reason => some { lease with phase := .writing directTotal reason }
  | _ => none

/-- The ledger raises instead of taking the step. -/
def ledgerRaises (lease : MemoryLease) : Option MemoryLease :=
  match lease.phase with
  | .started _ => some { lease with phase := .idle }
  | .granted _ => some { lease with reconcileRequired := true, phase := .reconciling .rollback }
  | .shrinking _ _ _ => some { lease with phase := .idle }
  | .undoing _ => some { lease with reconcileRequired := true, phase := .reconciling .rollback }
  | _ => none

/-- The update of the document that comes next. -/
def pending (lease : MemoryLease) : Option JournalUpdate :=
  match lease.phase with
  | .growing current directTotal requested => some (.grow current directTotal requested)
  | .lowered _ nextOwner => some (.write nextOwner)
  | .writing ownerTotal _ => some (.write ownerTotal)
  | _ => none

/-- The lease after `_write_owner_journal_total`. -/
def reconciled (lease : MemoryLease) : MemoryLease :=
  { lease with reconcileRequired := false, cleanupPending := false }

/-- The lease after the update, which was committed or has raised. -/
def journaled (committed : Bool) (lease : MemoryLease) : MemoryLease :=
  match lease.phase, committed with
  | .growing _ _ requested, true => { lease with phase := .granted requested }
  | .growing _ _ _, false => { lease with phase := .idle }
  | .lowered _ _, true => { lease.reconciled with phase := .idle }
  | .lowered current _, false => { lease with phase := .undoing current }
  | .writing _ (.before call), true => { lease.reconciled with phase := .started call }
  | .writing _ .rollback, true => { lease.reconciled with phase := .idle }
  | .writing _ .cleanup, true => { lease.reconciled with released := true, phase := .idle }
  | .writing _ .rollback, false => { lease with reconcileRequired := true, phase := .idle }
  | .writing _ _, false => { lease with phase := .idle }
  | _, _ => lease

/-! ### What a lease holds -/

variable {others : Nat} {lease lease' : MemoryLease}

/-- The most that the lease holds before it updates the document the next time. -/
def held (lease : MemoryLease) : Nat :=
  match lease.phase with
  | .granted requested => requested
  | .lowered current _ => current
  | .undoing current => current
  | _ => lease.direct

/-- What a call has read is what the ledger has, when the other leases of the process
have reserved `others`. -/
def Consistent (others : Nat) (lease : MemoryLease) : Prop :=
  match lease.phase with
  | .growing current directTotal requested =>
    current = lease.direct ∧ directTotal = others + lease.direct ∧ lease.direct ≤ requested
  | .granted requested => lease.direct ≤ requested
  | .shrinking current directTotal requested =>
    current = lease.direct ∧ directTotal = others + lease.direct ∧ requested ≤ lease.direct
  | .lowered current nextOwner => nextOwner = others + lease.direct ∧ lease.direct ≤ current
  | .undoing current => lease.direct ≤ current
  | .writing ownerTotal _ => ownerTotal = others + lease.direct
  | _ => True

theorem held_idle (h : lease.phase = .idle) : lease.held = lease.direct := by
  rw [held, h]

theorem consistent_idle (h : lease.phase = .idle) : lease.Consistent others := by
  rw [Consistent, h]
  trivial

theorem direct_le_held (h : lease.Consistent others) : lease.direct ≤ lease.held := by
  obtain ⟨direct, phase, _, _, _⟩ := lease
  cases phase with
  | granted | undoing => exact h
  | lowered current nextOwner => exact h.2
  | _ => exact le_rfl

theorem call_consistent {c : LeaseCall} (h : lease.call c = some lease') :
    lease.phase = .idle ∧ lease'.Consistent others ∧ lease'.direct = lease.direct ∧
      lease'.held = lease.held := by
  obtain ⟨_, phase, _, _, _⟩ := lease
  cases phase with
  | idle =>
    dsimp only [call] at h
    split_ifs at h <;> cases h <;> exact ⟨rfl, trivial, rfl, rfl⟩
  | _ => cases h

section

variable (hlease : lease.Consistent others)

include hlease

/-- **A step on the ledger** keeps what the lease may rely on and takes nothing more. -/
theorem advance_consistent (h : lease.advance (others + lease.direct) = some lease') :
    lease.phase ≠ .idle ∧ lease'.Consistent others ∧ lease'.held ≤ lease.held := by
  obtain ⟨direct, phase, _, _, _⟩ := lease
  cases phase with
  | started c =>
    refine ⟨nofun, ?_⟩
    cases c with
    | resize requested =>
      dsimp only [advance] at h
      split at h
      · rename_i hgrow
        cases h
        exact ⟨⟨rfl, rfl, hgrow⟩, le_rfl⟩
      · rename_i hshrink
        cases h
        exact ⟨⟨rfl, rfl, (not_le.mp hshrink).le⟩, le_rfl⟩
    | release =>
      cases h
      exact ⟨trivial, Nat.zero_le _⟩
  | granted | undoing =>
    cases h
    exact ⟨nofun, trivial, le_rfl⟩
  | shrinking current directTotal requested =>
    cases h
    obtain ⟨hcurrent, htotal, hshrink⟩ : current = direct ∧ directTotal = others + direct ∧
      requested ≤ direct := hlease
    refine ⟨nofun, ⟨?_, ?_⟩, hcurrent.le⟩
    · show directTotal - current + requested = others + requested
      omega
    · show requested ≤ current
      omega
  | reconciling reason =>
    cases h
    exact ⟨nofun, rfl, le_rfl⟩
  | _ => cases h

theorem ledgerRaises_consistent (h : lease.ledgerRaises = some lease') :
    lease.phase ≠ .idle ∧ lease'.Consistent others ∧ lease'.held ≤ lease.held := by
  obtain ⟨_, phase, _, _, _⟩ := lease
  cases phase with
  | started | shrinking =>
    cases h
    exact ⟨nofun, trivial, le_rfl⟩
  | granted | undoing =>
    cases h
    exact ⟨nofun, trivial, hlease⟩
  | _ => cases h

/-- An update that was committed records what the lease holds from then on, and one that raised
leaves the lease with what it held. -/
theorem held_journaled {update : JournalUpdate} (h : lease.pending = some update) :
    lease.phase ≠ .idle ∧
      ((lease.journaled true).Consistent others ∧
        others + (lease.journaled true).held = update.amount) ∧
      (lease.journaled false).Consistent others ∧ (lease.journaled false).held ≤ lease.held := by
  obtain ⟨direct, phase, _, _, _⟩ := lease
  cases phase with
  | growing current directTotal requested =>
    cases h
    obtain ⟨hcurrent, htotal, hgrow⟩ : current = direct ∧ directTotal = others + direct ∧
      direct ≤ requested := hlease
    refine ⟨nofun, ⟨hgrow, ?_⟩, trivial, le_rfl⟩
    show others + requested = directTotal - current + requested
    omega
  | lowered current nextOwner =>
    cases h
    exact ⟨nofun, ⟨trivial, hlease.1.symm⟩, hlease.2, le_rfl⟩
  | writing ownerTotal reason =>
    cases h
    cases reason with
    | before | rollback | cleanup => exact ⟨nofun, ⟨trivial, hlease.symm⟩, trivial, le_rfl⟩
  | _ => cases h

/-- Only a growth that is tested records more than what the lease holds. -/
theorem amount_le_held {update : JournalUpdate} (h : lease.pending = some update)
    (hgrow : ∀ current directTotal requested, update = .grow current directTotal requested →
      requested ≤ current) :
    update.amount ≤ others + lease.held := by
  obtain ⟨direct, phase, _, _, _⟩ := lease
  cases phase with
  | growing current directTotal requested =>
    cases h
    obtain ⟨hcurrent, htotal, -⟩ : current = direct ∧ directTotal = others + direct ∧
      direct ≤ requested := hlease
    have hle := hgrow _ _ _ rfl
    show directTotal - current + requested ≤ others + direct
    omega
  | lowered current nextOwner =>
    cases h
    obtain ⟨hnext, hle⟩ : nextOwner = others + direct ∧ direct ≤ current := hlease
    show nextOwner ≤ others + current
    omega
  | writing ownerTotal reason =>
    cases h
    exact hlease.le
  | _ => cases h

end

end MemoryLease

/-! ### The leases of a process -/

/-- The direct ledger of a process, with the state of each lease, and the document. -/
structure MemoryProcess (ι : Type) where
  lease : ι → MemoryLease
  registry : MemoryRegistry

/-- What happens in a process. -/
inductive ProcessEvent (ι : Type)
  | call (i : ι) (call : LeaseCall)
  | ledger (i : ι)
  | ledgerRaises (i : ι)
  /-- The update of a lease is committed. -/
  | journal (i : ι) (now : Nat) (processAlive : Int → List Char → Bool)
  /-- The update of a lease raises: it is refused, or the document cannot be written. -/
  | journalRaises (i : ι)
  /-- Another process changes the document. -/
  | others (registry : MemoryRegistry)

namespace MemoryProcess

variable {ι : Type}

/-- A process with new leases. -/
def start (ι : Type) (registry : MemoryRegistry) : MemoryProcess ι :=
  ⟨fun _ => MemoryLease.new, registry⟩

variable [DecidableEq ι]

/-- One lease moves. -/
def set (p : MemoryProcess ι) (i : ι) (lease : MemoryLease) : MemoryProcess ι :=
  { p with lease := update p.lease i lease }

variable [Fintype ι]

/-- `_direct_lease_total_reserved`. -/
def directTotal (p : MemoryProcess ι) : Nat := ∑ i, (p.lease i).direct

/-- One step of the process `key`.  Other processes leave its record alone. -/
def step (key : ProcessId) (capacity : Nat) (p : MemoryProcess ι) :
    ProcessEvent ι → Option (MemoryProcess ι)
  | .call i c => ((p.lease i).call c).map (p.set i)
  | .ledger i => ((p.lease i).advance p.directTotal).map (p.set i)
  | .ledgerRaises i => (p.lease i).ledgerRaises.map (p.set i)
  | .journal i now processAlive => do
      let update ← (p.lease i).pending
      match update.run key capacity now processAlive p.registry with
      | .ok registry => some { p.set i ((p.lease i).journaled true) with registry := registry }
      | .error _ => none
  | .journalRaises i => do
      let _ ← (p.lease i).pending
      some (p.set i ((p.lease i).journaled false))
  | .others registry =>
    if recorded registry key = recorded p.registry key then some { p with registry := registry }
    else none

/-- A call begins only when no lease of the process is in a call. -/
def Undisturbed (p : MemoryProcess ι) : ProcessEvent ι → Prop
  | .call _ _ => ∀ j, (p.lease j).phase = .idle
  | _ => True

instance (p : MemoryProcess ι) : (e : ProcessEvent ι) → Decidable (p.Undisturbed e)
  | .call _ _ => inferInstanceAs (Decidable (∀ j, (p.lease j).phase = .idle))
  | .ledger _ | .ledgerRaises _ | .journal _ _ _ | .journalRaises _ | .others _ => isTrue trivial

/-- One step of a process whose calls do not overlap. -/
def serialStep (key : ProcessId) (capacity : Nat) (p : MemoryProcess ι) (e : ProcessEvent ι) :
    Option (MemoryProcess ι) :=
  if p.Undisturbed e then p.step key capacity e else none

/-! ### Calls that do not overlap -/

variable {key : ProcessId} {capacity : Nat} {p p' : MemoryProcess ι} {i : ι}

/-- The reservations of the other leases. -/
def othersTotal (p : MemoryProcess ι) (i : ι) : Nat :=
  ∑ j ∈ Finset.univ.erase i, (p.lease j).direct

/-- **The invariant of calls that do not overlap**: at most one lease is in a call, it
may rely on what it has read, and the record covers what it holds. -/
structure Serial (key : ProcessId) (p : MemoryProcess ι) : Prop where
  alone : ∀ i j, i ≠ j → (p.lease i).phase = .idle ∨ (p.lease j).phase = .idle
  consistent : ∀ i, (p.lease i).Consistent (p.othersTotal i)
  covered : ∀ i, p.othersTotal i + (p.lease i).held ≤ recorded p.registry key

theorem othersTotal_add_direct (p : MemoryProcess ι) (i : ι) :
    p.othersTotal i + (p.lease i).direct = p.directTotal :=
  Finset.sum_erase_add _ _ (Finset.mem_univ i)

theorem othersTotal_set (p : MemoryProcess ι) (i : ι) (lease : MemoryLease) :
    (p.set i lease).othersTotal i = p.othersTotal i := by
  apply Finset.sum_congr rfl
  intro j hj
  show (update p.lease i lease j).direct = _
  rw [update_of_ne (Finset.ne_of_mem_erase hj)]

theorem Serial.start (registry : MemoryRegistry) : Serial key (MemoryProcess.start ι registry) where
  alone := fun _ _ _ => .inl rfl
  consistent := fun _ => trivial
  covered := by
    intro i
    have hzero : (MemoryProcess.start ι registry).othersTotal i = 0 :=
      Finset.sum_eq_zero fun _ _ => rfl
    rw [hzero]
    exact Nat.zero_le _

theorem Serial.others_idle (h : Serial key p) (hi : (p.lease i).phase ≠ .idle) :
    ∀ j, j ≠ i → (p.lease j).phase = .idle :=
  fun j hj => (h.alone i j hj.symm).resolve_left hi

/-- The lease in a call may change if the record still covers it and the others. -/
theorem Serial.set {lease : MemoryLease} {registry : MemoryRegistry}
    (hidle : ∀ j, j ≠ i → (p.lease j).phase = .idle) (hlease : lease.Consistent (p.othersTotal i))
    (hcovered : p.othersTotal i + lease.held ≤ recorded registry key) :
    Serial key { p.set i lease with registry := registry } := by
  have hsame : (p.set i lease).lease i = lease := by
    show update p.lease i lease i = lease
    rw [update_self]
  have hother : ∀ j, j ≠ i → (p.set i lease).lease j = p.lease j := by
    intro j hj
    show update p.lease i lease j = p.lease j
    rw [update_of_ne hj]
  have hphase : ∀ j, j ≠ i → ((p.set i lease).lease j).phase = .idle :=
    fun j hj => (congrArg MemoryLease.phase (hother j hj)).trans (hidle j hj)
  refine ⟨fun j k hjk => ?_, fun j => ?_, fun j => ?_⟩
  · by_cases hj : j = i
    · exact .inr (hphase k fun hk => hjk (hj.trans hk.symm))
    · exact .inl (hphase j hj)
  · by_cases hj : j = i
    · subst hj
      show ((p.set j lease).lease j).Consistent ((p.set j lease).othersTotal j)
      rw [othersTotal_set, hsame]
      exact hlease
    · exact MemoryLease.consistent_idle (hphase j hj)
  · show (p.set i lease).othersTotal j + ((p.set i lease).lease j).held ≤ recorded registry key
    by_cases hj : j = i
    · subst hj
      rwa [othersTotal_set, hsame]
    · -- an idle lease holds its entry, so that this is the sum of all
      have hdirect := MemoryLease.direct_le_held hlease
      have hsum := othersTotal_add_direct (p.set i lease) i
      rw [othersTotal_set, hsame] at hsum
      rw [MemoryLease.held_idle (hphase j hj), othersTotal_add_direct]
      omega

/-- **The step lemma.** -/
theorem Serial.step {e : ProcessEvent ι} (h : Serial key p)
    (hs : p.serialStep key capacity e = some p') : Serial key p' := by
  rw [serialStep] at hs
  split at hs
  case isFalse => cases hs
  rename_i hundisturbed
  cases e with
  | call i c =>
    obtain ⟨lease, hcall, rfl⟩ := Option.map_eq_some_iff.mp hs
    obtain ⟨-, hlease, -, hheld⟩ := MemoryLease.call_consistent hcall
    refine Serial.set (fun j _ => hundisturbed j) hlease ?_
    rw [hheld]
    exact h.covered i
  | ledger i =>
    obtain ⟨lease, hadvance, rfl⟩ := Option.map_eq_some_iff.mp hs
    rw [← othersTotal_add_direct p i] at hadvance
    obtain ⟨hi, hlease, hheld⟩ := MemoryLease.advance_consistent (h.consistent i) hadvance
    exact Serial.set (h.others_idle hi) hlease
      ((Nat.add_le_add_left hheld _).trans (h.covered i))
  | ledgerRaises i =>
    obtain ⟨lease, hraises, rfl⟩ := Option.map_eq_some_iff.mp hs
    obtain ⟨hi, hlease, hheld⟩ := MemoryLease.ledgerRaises_consistent (h.consistent i) hraises
    exact Serial.set (h.others_idle hi) hlease
      ((Nat.add_le_add_left hheld _).trans (h.covered i))
  | journal i now processAlive =>
    obtain ⟨update, hpending, hs⟩ := Option.bind_eq_some_iff.mp hs
    split at hs
    · rename_i registry hrun
      cases hs
      obtain ⟨hi, ⟨hlease, hheld⟩, -⟩ := MemoryLease.held_journaled (h.consistent i) hpending
      refine Serial.set (h.others_idle hi) hlease ?_
      rw [hheld, (JournalUpdate.run_ok hrun).1]
    · cases hs
  | journalRaises i =>
    obtain ⟨update, hpending, hs⟩ := Option.bind_eq_some_iff.mp hs
    cases hs
    obtain ⟨hi, -, hlease, hheld⟩ := MemoryLease.held_journaled (h.consistent i) hpending
    exact Serial.set (h.others_idle hi) hlease
      ((Nat.add_le_add_left hheld _).trans (h.covered i))
  | others registry =>
    dsimp only [MemoryProcess.step] at hs
    split at hs
    · rename_i hrecorded
      cases hs
      refine ⟨h.alone, h.consistent, fun i => ?_⟩
      show _ ≤ recorded registry key
      rw [hrecorded]
      exact h.covered i
    · cases hs

theorem Serial.directTotal_le (h : Serial key p) : p.directTotal ≤ recorded p.registry key := by
  rcases isEmpty_or_nonempty ι with hempty | ⟨⟨i⟩⟩
  · have hzero : p.directTotal = 0 := Finset.sum_of_isEmpty _
    omega
  · have hsum := othersTotal_add_direct p i
    have hdirect := MemoryLease.direct_le_held (h.consistent i)
    have hcovered := h.covered i
    omega

/-- **The record of a process covers its reservations** in every state of every run, with
any failures, if no call begins while another lease of the process is in one. -/
theorem direct_le_recorded {registry : MemoryRegistry} {events : List (ProcessEvent ι)}
    (h : Runs (fun p e p' => serialStep key capacity p e = some p') (MemoryProcess.start ι registry)
      events p) : p.directTotal ≤ recorded p.registry key :=
  Serial.directTotal_le
    (h.invariant (Serial.start registry) fun _ _ _ hserial hs => hserial.step hs)

/-- Two leases grow one after the other, and the first one shrinks. -/
def serialCalls : List (ProcessEvent Bool) :=
  [.call false (.resize 10), .ledger false, .journal false 1 (fun _ _ => true), .ledger false,
    .call true (.resize 20), .ledger true, .journal true 2 (fun _ _ => true), .ledger true,
    .call false (.resize 5), .ledger false, .ledger false, .journal false 3 (fun _ _ => true)]

theorem direct_le_recorded_serialCalls : ∃ p : MemoryProcess Bool,
    serialCalls.foldlM (serialStep ⟨1, []⟩ 100) (MemoryProcess.start Bool ∅) = some p ∧
      p.directTotal = 25 ∧ p.directTotal ≤ recorded p.registry ⟨1, []⟩ :=
  have hrun : serialCalls.foldlM (serialStep ⟨1, []⟩ 100) (MemoryProcess.start Bool ∅) = some _ :=
    rfl
  ⟨_, hrun, by decide, direct_le_recorded (Runs.of_foldlM hrun)⟩

/-- Two leases that grow at the same time: both read the ledger before either has
updated the document. -/
def overlappingCalls : List (ProcessEvent Bool) :=
  [.call false (.resize 10), .ledger false, .call true (.resize 20), .ledger true,
    .journal false 1 (fun _ _ => true), .ledger false,
    .journal true 2 (fun _ _ => true), .ledger true]

/-- **A growth that overlaps another one takes its reservation out of the record.** -/
theorem overlapping_growth : ∃ p : MemoryProcess Bool,
    Runs (fun p e p' => step ⟨1, []⟩ 100 p e = some p') (MemoryProcess.start Bool ∅)
      overlappingCalls p ∧
      recorded p.registry ⟨1, []⟩ = 20 ∧ p.directTotal = 30 :=
  ⟨_, Runs.of_foldlM rfl, by decide, by decide⟩

end MemoryProcess

end SchemaSanitizer
