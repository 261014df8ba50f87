/-
SchemaSanitizer/MemoryRegistry.lean

The document that the processes of a host share in `cross_process_memory.py`: one
record per process with the bytes it has reserved, and the two updates that a lease
makes of it while it holds the file lock.

* `JournalUpdate.grow` repairs the record of the process to the total that its direct
  ledger had, tests the capacity of the host and writes the new total;
* `JournalUpdate.write` writes a total, `_write_owner_journal_total`.

Both first clean the document (`cleanLeases`).  What later modules use of an update
that does not raise is `JournalUpdate.run_ok`: the record of the process is the new
total, the records of the processes that are reported alive stay, and the sum of all
records is within the capacity or has not grown by more than the record.
-/
import SchemaSanitizer.Lib.Failure

namespace SchemaSanitizer

open Lib List

/-! ### The document -/

/-- A process: its number and its start token.  The key of its record is the text
`pid:start`. -/
structure ProcessId where
  pid : Int
  start : List Char
  deriving DecidableEq, Repr

/-- A record of the document. -/
structure MemoryRecord where
  reserved : Nat
  updated : Nat
  deriving DecidableEq, Repr

/-- `leases`, in the order of the document. -/
abbrev MemoryRegistry := AList fun _ : ProcessId => MemoryRecord

/-- The bytes recorded for a process. -/
def recorded (leases : MemoryRegistry) (key : ProcessId) : Nat :=
  (leases.lookup key).elim 0 MemoryRecord.reserved

/-- The sum of the records. -/
def totalReserved (leases : MemoryRegistry) : Nat :=
  (leases.entries.map fun entry => entry.2.reserved).sum

/-- What an update raises. -/
inductive MemoryError
  | registryBound
  | invalidEntry (key : ProcessId)
  | capacityExhausted (limit actual : Nat)
  | registryFull
  deriving DecidableEq, Repr

/-- The text of an error. -/
def MemoryError.message : MemoryError → String
  | .registryBound => "cross-process resident-memory process registry exceeds its bound"
  | .invalidEntry key => "invalid resident-memory lease entry: '" ++ toString key.pid ++ ":" ++
      String.ofList key.start ++ "'"
  | .capacityExhausted _ _ => "cross-process resident-memory capacity exhausted"
  | .registryFull => "cross-process resident-memory process registry is full"

/-- `_MAX_PROCESS_LEASE_RECORDS`. -/
def maxProcessLeaseRecords : Nat := 4096

/-- `_MAX_LIVENESS_CHECKS_PER_TRANSACTION`. -/
def maxLivenessChecks : Nat := 256

/-! ### Cleaning -/

/-- The records that the scan of `_clean_leases` keeps when it may still ask `checks`
times whether a process is alive.  An empty record is not worth the question. -/
def keptLeases (processAlive : Int → List Char → Bool) :
    (checks : Nat) → List (Sigma fun _ : ProcessId => MemoryRecord) →
      List (Sigma fun _ : ProcessId => MemoryRecord)
  | _, [] => []
  | checks, entry :: rest =>
    if entry.2.reserved = 0 then keptLeases processAlive checks rest
    else
      match checks with
      | 0 => entry :: keptLeases processAlive 0 rest
      | checks + 1 =>
        if processAlive entry.1.pid entry.1.start then
          entry :: keptLeases processAlive checks rest
        else keptLeases processAlive checks rest

theorem keptLeases_sublist (processAlive : Int → List Char → Bool) (checks : Nat)
    (entries : List (Sigma fun _ : ProcessId => MemoryRecord)) :
    (keptLeases processAlive checks entries).Sublist entries := by
  induction entries generalizing checks with
  | nil => exact .slnil
  | cons entry rest ih =>
    rw [keptLeases.eq_def]
    dsimp only
    split
    · exact (ih checks).cons entry
    · rcases checks with - | checks
      · exact (ih 0).cons_cons entry
      · dsimp only
        split
        · exact (ih checks).cons_cons entry
        · exact (ih checks).cons entry

/-- The document after the scan. -/
def keptRegistry (processAlive : Int → List Char → Bool) (leases : MemoryRegistry) :
    MemoryRegistry :=
  ⟨keptLeases processAlive maxLivenessChecks leases.entries,
    leases.nodupKeys.sublist (keptLeases_sublist processAlive maxLivenessChecks leases.entries)⟩

/-- `_clean_leases`. -/
def cleanLeases (processAlive : Int → List Char → Bool) (leases : MemoryRegistry) :
    Except MemoryError MemoryRegistry :=
  if maxProcessLeaseRecords < leases.entries.length then .error .registryBound
  else
    match leases.keys.find? fun key => key.pid ≤ 0 with
    | some key => .error (.invalidEntry key)
    | none => .ok (keptRegistry processAlive leases)

/-! ### Updates -/

/-- The record of the process is written, or dropped if there is nothing to record. -/
def putOwner (key : ProcessId) (amount now : Nat) (leases : MemoryRegistry) : MemoryRegistry :=
  if amount ≠ 0 then leases.insert key ⟨amount, now⟩ else leases.erase key

/-- The same with the bound on the number of records. -/
def putOwnerBounded (key : ProcessId) (amount now : Nat) (leases : MemoryRegistry) :
    Except MemoryError MemoryRegistry :=
  if amount ≠ 0 ∧ key ∉ leases ∧ maxProcessLeaseRecords ≤ leases.entries.length then
    .error .registryFull
  else .ok (putOwner key amount now leases)

/-- The document with the record of the process at the total of its ledger. -/
def repairOwner (key : ProcessId) (directTotal now : Nat) (leases : MemoryRegistry) :
    MemoryRegistry :=
  if recorded leases key ≠ directTotal then putOwner key directTotal now leases else leases

/-- What a lease does to the document while it holds the file lock. -/
inductive JournalUpdate
  /-- The growth of `resize`, with what it read of the direct ledger before. -/
  | grow (current directTotal requested : Nat)
  /-- `_write_owner_journal_total`. -/
  | write (ownerTotal : Nat)
  deriving DecidableEq, Repr

/-- The total that an update writes; the total of the ledger contains the lease. -/
def JournalUpdate.amount : JournalUpdate → Nat
  | .grow current directTotal requested => directTotal - current + requested
  | .write ownerTotal => ownerTotal

/-- An update of the document at the time `now`, by the process `key`. -/
def JournalUpdate.run (key : ProcessId) (capacity now : Nat)
    (processAlive : Int → List Char → Bool) (update : JournalUpdate) (leases : MemoryRegistry) :
    Except MemoryError MemoryRegistry := do
  let leases ← cleanLeases processAlive leases
  match update with
  | .grow current directTotal requested =>
    let leases := repairOwner key directTotal now leases
    let nextTotal := totalReserved leases - directTotal + update.amount
    if current < requested ∧ capacity < nextTotal then
      .error (.capacityExhausted capacity nextTotal)
    else putOwnerBounded key update.amount now leases
  | .write ownerTotal => putOwnerBounded key ownerTotal now leases

/-! ### Records and sums -/

variable {key k : ProcessId} {amount now : Nat} {leases : MemoryRegistry}
  {processAlive : Int → List Char → Bool}

theorem recorded_putOwner : recorded (putOwner key amount now leases) key = amount := by
  rw [putOwner]
  split
  · rw [recorded, AList.lookup_insert]
    rfl
  · rename_i h
    rw [recorded, AList.lookup_erase]
    exact (not_not.mp h).symm

theorem recorded_putOwner_of_ne (hk : k ≠ key) :
    recorded (putOwner key amount now leases) k = recorded leases k := by
  rw [putOwner]
  split
  · rw [recorded, AList.lookup_insert_ne hk, recorded]
  · rw [recorded, AList.lookup_erase_ne hk, recorded]

theorem sum_kerase (key : ProcessId) (entries : List (Sigma fun _ : ProcessId => MemoryRecord)) :
    ((entries.kerase key).map fun entry => entry.2.reserved).sum
        + ((entries.dlookup key).elim 0 MemoryRecord.reserved)
      = (entries.map fun entry => entry.2.reserved).sum := by
  induction entries with
  | nil => rfl
  | cons entry rest ih =>
    obtain ⟨k, record⟩ := entry
    by_cases h : key = k
    · subst h
      have herased : kerase key (⟨key, record⟩ :: rest) = rest := kerase_cons_eq rfl
      rw [herased, dlookup_cons_eq, map_cons, sum_cons, Nat.add_comm]
      rfl
    · rw [kerase_cons_ne h, dlookup_cons_ne _ _ h, map_cons, map_cons,
        sum_cons, sum_cons, ← ih]
      omega

theorem totalReserved_putOwner (key : ProcessId) (amount now : Nat) (leases : MemoryRegistry) :
    totalReserved (putOwner key amount now leases) + recorded leases key
      = totalReserved leases + amount := by
  have hsum := sum_kerase key leases.entries
  rw [putOwner]
  split
  · show ((leases.insert key ⟨amount, now⟩).entries.map fun entry => entry.2.reserved).sum + _ = _
    rw [AList.entries_insert, map_cons, sum_cons]
    show amount + _ + recorded leases key = totalReserved leases + amount
    rw [totalReserved, ← hsum, Nat.add_comm amount, Nat.add_right_comm]
    rfl
  · rename_i h
    rw [not_not.mp h]
    exact hsum

theorem recorded_repairOwner : recorded (repairOwner key amount now leases) key = amount := by
  rw [repairOwner]
  split
  · exact recorded_putOwner
  · rename_i h
    exact not_not.mp h

theorem recorded_repairOwner_of_ne (hk : k ≠ key) :
    recorded (repairOwner key amount now leases) k = recorded leases k := by
  rw [repairOwner]
  split
  · exact recorded_putOwner_of_ne hk
  · rfl

theorem totalReserved_repairOwner (key : ProcessId) (amount now : Nat) (leases : MemoryRegistry) :
    totalReserved (repairOwner key amount now leases) + recorded leases key
      = totalReserved leases + amount := by
  rw [repairOwner]
  split
  · exact totalReserved_putOwner key amount now leases
  · rename_i h
    rw [not_not.mp h]

/-- The scan keeps what is recorded for a process that is reported alive: it drops the
record only if it is empty. -/
theorem dlookup_keptLeases (hk : processAlive k.pid k.start = true) (checks : Nat)
    {entries : List (Sigma fun _ : ProcessId => MemoryRecord)} (hnodup : entries.NodupKeys) :
    ((keptLeases processAlive checks entries).dlookup k).elim 0 MemoryRecord.reserved
      = (entries.dlookup k).elim 0 MemoryRecord.reserved := by
  induction entries generalizing checks with
  | nil => rfl
  | cons entry rest ih =>
    obtain ⟨key, record⟩ := entry
    rw [nodupKeys_cons] at hnodup
    have hrest := fun checks => ih checks hnodup.2
    rw [keptLeases.eq_def]
    dsimp only
    by_cases h : k = key
    · subst h
      rw [dlookup_cons_eq]
      split
      · rename_i hzero
        have hgone : k ∉ rest.keys := hnodup.1
        rw [hrest, dlookup_eq_none.mpr hgone]
        exact hzero.symm
      · rcases checks with - | checks
        · rw [dlookup_cons_eq]
        · rw [dlookup_cons_eq]
    · rw [dlookup_cons_ne _ _ h]
      split
      · exact hrest checks
      · rcases checks with - | checks
        · rw [dlookup_cons_ne _ _ h]
          exact hrest 0
        · dsimp only
          split
          · rw [dlookup_cons_ne _ _ h]
            exact hrest checks
          · exact hrest checks

theorem recorded_keptRegistry (hk : processAlive k.pid k.start = true) :
    recorded (keptRegistry processAlive leases) k = recorded leases k :=
  dlookup_keptLeases hk maxLivenessChecks leases.nodupKeys

theorem totalReserved_keptRegistry (processAlive : Int → List Char → Bool)
    (leases : MemoryRegistry) :
    totalReserved (keptRegistry processAlive leases) ≤ totalReserved leases := by
  have hsub := keptLeases_sublist processAlive maxLivenessChecks leases.entries
  exact (hsub.map fun entry => entry.2.reserved).sum_le_sum fun _ _ => Nat.zero_le _

theorem cleanLeases_eq_ok {cleaned : MemoryRegistry}
    (h : cleanLeases processAlive leases = .ok cleaned) :
    cleaned = keptRegistry processAlive leases := by
  rw [cleanLeases] at h
  split at h
  · cases h
  · split at h
    · cases h
    · cases h
      rfl

theorem putOwnerBounded_eq_ok {written : MemoryRegistry}
    (h : putOwnerBounded key amount now leases = .ok written) :
    written = putOwner key amount now leases := by
  rw [putOwnerBounded] at h
  split at h
  · cases h
  · cases h
    rfl

/-! ### What an update does -/

/-- **An update that does not raise.**  The sum stays within the capacity if the update
is a growth that was tested, and otherwise it grows by no more than the record. -/
theorem JournalUpdate.run_ok {capacity : Nat} {update : JournalUpdate} {leases' : MemoryRegistry}
    (h : update.run key capacity now processAlive leases = .ok leases') :
    recorded leases' key = update.amount ∧
      (∀ k, k ≠ key → processAlive k.pid k.start = true → recorded leases' k = recorded leases k) ∧
      ((∃ current directTotal requested, update = .grow current directTotal requested ∧
          current < requested ∧ totalReserved leases' ≤ capacity) ∨
        ((∀ current directTotal requested, update = .grow current directTotal requested →
            requested ≤ current) ∧
          (processAlive key.pid key.start = true →
            totalReserved leases' + recorded leases key ≤
            totalReserved leases + update.amount))) := by
  rw [JournalUpdate.run, bind_eq_ok_iff] at h
  obtain ⟨cleaned, hclean, h⟩ := h
  obtain rfl := cleanLeases_eq_ok hclean
  have hkept := totalReserved_keptRegistry processAlive leases
  cases update with
  | grow current directTotal requested =>
    dsimp only at h
    split at h
    · cases h
    · rename_i hadmit
      obtain rfl := putOwnerBounded_eq_ok h
      refine ⟨recorded_putOwner, fun k hk halive => ?_, ?_⟩
      · rw [recorded_putOwner_of_ne hk, recorded_repairOwner_of_ne hk,
          recorded_keptRegistry halive]
      -- after the repair the old record is the total of the ledger
      have hput := totalReserved_putOwner key
        (JournalUpdate.grow current directTotal requested).amount now
        (repairOwner key directTotal now (keptRegistry processAlive leases))
      have hrepair := totalReserved_repairOwner key directTotal now
        (keptRegistry processAlive leases)
      rw [recorded_repairOwner] at hput
      by_cases hgrow : current < requested
      · refine .inl ⟨current, directTotal, requested, rfl, hgrow, ?_⟩
        have hle : totalReserved (repairOwner key directTotal now
            (keptRegistry processAlive leases)) - directTotal
            + (JournalUpdate.grow current directTotal requested).amount ≤ capacity := by
          by_contra hlt
          exact hadmit ⟨hgrow, by omega⟩
        omega
      · refine .inr ⟨?_, fun halive => ?_⟩
        · rintro _ _ _ ⟨⟩
          omega
        · rw [recorded_keptRegistry halive] at hrepair
          omega
  | write ownerTotal =>
    obtain rfl := putOwnerBounded_eq_ok h
    refine ⟨recorded_putOwner, fun k hk halive => ?_, .inr ⟨?_, fun halive => ?_⟩⟩
    · rw [recorded_putOwner_of_ne hk, recorded_keptRegistry halive]
    · rintro _ _ _ ⟨⟩
    · have hput := totalReserved_putOwner key ownerTotal now (keptRegistry processAlive leases)
      rw [recorded_keptRegistry halive] at hput
      show _ ≤ totalReserved leases + ownerTotal
      omega

/-- Distinct identities share out the reserved total. -/
theorem sum_recorded_le {ι : Type*} (s : Finset ι) {identity : ι → ProcessId}
    (hinj : Function.Injective identity) (leases : MemoryRegistry) :
    ∑ i ∈ s, recorded leases (identity i) ≤ totalReserved leases := by
  have hentries : ∀ entries : List (Sigma fun _ : ProcessId => MemoryRecord),
      ∑ i ∈ s, (entries.dlookup (identity i)).elim 0 MemoryRecord.reserved
        ≤ (entries.map fun entry => entry.2.reserved).sum := by
    intro entries
    induction entries with
    | nil => simp
    | cons entry rest ih =>
      obtain ⟨key, record⟩ := entry
      -- at most one of the processes has the first record
      have hfirst : ∑ i ∈ s, (if identity i = key then record.reserved else 0)
          ≤ record.reserved := by
        rw [← Finset.sum_filter, Finset.sum_const, smul_eq_mul]
        have hcard : (s.filter fun i => identity i = key).card ≤ 1 := by
          rw [Finset.card_le_one]
          intro i hi j hj
          exact hinj ((Finset.mem_filter.mp hi).2.trans (Finset.mem_filter.mp hj).2.symm)
        exact (Nat.mul_le_mul_right _ hcard).trans (Nat.one_mul _).le
      have hterm : ∀ i ∈ s, (dlookup (identity i) (⟨key, record⟩ :: rest)).elim 0
            MemoryRecord.reserved
          ≤ (if identity i = key then record.reserved else 0)
            + (rest.dlookup (identity i)).elim 0 MemoryRecord.reserved := by
        intro i _
        by_cases h : identity i = key
        · rw [if_pos h, h, dlookup_cons_eq]
          exact Nat.le_add_right _ _
        · rw [if_neg h, dlookup_cons_ne _ _ h, Nat.zero_add]
      calc _ ≤ ∑ i ∈ s, ((if identity i = key then record.reserved else 0)
              + (rest.dlookup (identity i)).elim 0 MemoryRecord.reserved) :=
            Finset.sum_le_sum hterm
        _ = ∑ i ∈ s, (if identity i = key then record.reserved else 0)
              + ∑ i ∈ s, (rest.dlookup (identity i)).elim 0 MemoryRecord.reserved :=
            Finset.sum_add_distrib
        _ ≤ record.reserved + (rest.map fun entry => entry.2.reserved).sum :=
            Nat.add_le_add hfirst ih
        _ = ((⟨key, record⟩ :: rest : List (Sigma fun _ : ProcessId => MemoryRecord)).map
              fun entry => entry.2.reserved).sum := (sum_cons ..).symm
  exact hentries leases.entries

end SchemaSanitizer
