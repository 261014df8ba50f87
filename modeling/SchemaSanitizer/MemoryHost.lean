/-
SchemaSanitizer/MemoryHost.lean

The processes of a host that share a document of reservations: each has one lease of
the same capacity, any of them may crash at any step, and the file lock is exclusive.

A lease updates the document in two halves under the lock: it recovers what an earlier
process has left (`recoverLockedPayload`), and it decodes, updates and commits the
document (`updateState`).  Both halves run under a schedule of failures, so that a
crash may leave a half committed document behind.  Between the halves the other
processes go on with what does not need the lock.

The abstract journal is a function `J` from the processes to bytes.  A byte string
*shows* `J` if it decodes to a document within the capacity whose records of the live
processes are those of `J`.  The invariant is that each image to which the files may
be recovered shows `J`, and that no live process holds more than its `J`
(`Host.Sound`).  A prepared update of the process `k` is the one exception: its second
image may have another record of `k`, since it is chosen only if `k` is dead.

    recovery    J stays
    update      J changes at the process that commits
    crash       one process less
-/
import SchemaSanitizer.JournalAtomic
import SchemaSanitizer.MemoryLease

namespace SchemaSanitizer

open Lib Lib.Act Function

/-! ### The document -/

/-- What the processes of a host share.  A process has a positive number, and its start
token fits into the header of a journal. -/
structure HostConfig (ι : Type) where
  journal : JournalConfig
  codec : MemoryCodec
  capacity : Nat
  identity : ι → ProcessId
  identity_injective : Injective identity
  pid_pos : ∀ i, 0 < (identity i).pid
  start_length : ∀ i, (identity i).start.length ≤ 128

variable {ι : Type} (cfg : HostConfig ι)

/-- `_decode_state`. -/
def decodeState (raw : Bytes) : Except String MemoryRegistry :=
  if raw = [] then .ok ∅
  else if cfg.journal.maxPayloadBytes < raw.length then
    .error "cross-process resident-memory state exceeds its bounded file size"
  else cfg.codec.loads raw

/-- `_locked_state` after the recovery, with the update of the process `i`. -/
def updateState (i : ι) (update : JournalUpdate) (now : Nat)
    (processAlive : Int → List Char → Bool) (raw : Bytes) : FileAct Unit := do
  let leases ← Act.ofExcept (decodeState cfg raw)
  let leases' ← Act.ofExcept
    ((update.run (cfg.identity i) cfg.capacity now processAlive leases).mapError
      MemoryError.message)
  let payload := cfg.codec.dumps leases'
  if cfg.journal.maxPayloadBytes < payload.length then
    Act.raise "cross-process resident-memory state exceeds its bounded file size"
  else if payload ≠ cfg.codec.dumps leases then
    commitLockedPayload cfg.journal raw payload (cfg.identity i).pid (cfg.identity i).start
  else pure ()

/-! ### The host -/

/-- A process and its lease. -/
structure HostProcess where
  alive : Bool
  lease : MemoryLease

/-- The files, the process that holds the lock with what it has recovered, and the
processes. -/
@[ext]
structure Host (ι : Type) where
  files : CoordinationFiles
  lock : Option (ι × Bytes)
  process : ι → HostProcess

/-- What happens on a host. -/
inductive HostEvent (ι : Type)
  | call (i : ι) (call : LeaseCall)
  | ledger (i : ι)
  | ledgerRaises (i : ι)
  | lockRaises (i : ι)
  | recover (i : ι)
  | update (i : ι)
  | crash (i : ι)
  deriving DecidableEq, Repr

namespace Host

/-- There is no document, and the leases are new. -/
def start (ι : Type) : Host ι := ⟨⟨[], [], none, none⟩, none, fun _ => ⟨true, MemoryLease.new⟩⟩

/-- The process is alive. -/
def Live (s : Host ι) (i : ι) : Prop := (s.process i).alive = true

/-- A process that is alive is reported alive.  One that has died since it was asked for
may be reported alive, too. -/
def Reports (s : Host ι) (processAlive : Int → List Char → Bool) : Prop :=
  ∀ i, s.Live i → processAlive (cfg.identity i).pid (cfg.identity i).start = true

variable [DecidableEq ι]

/-- One lease moves. -/
def setLease (s : Host ι) (i : ι) (lease : MemoryLease) : Host ι :=
  { s with process := Function.update s.process i ⟨(s.process i).alive, lease⟩ }

/-- A process is gone, and so is its lock. -/
def crashed (s : Host ι) (i : ι) : Host ι :=
  { s with
    lock := s.lock.filter fun held => held.1 ≠ i
    process := Function.update s.process i ⟨false, (s.process i).lease⟩ }

/-- The host after the recovery of a process. -/
def recovered (s : Host ι) (i : ι) (ended : Ended (Bytes × Bytes) CoordinationFiles String Bytes) :
    Host ι :=
  match ended.outcome with
  | .returned raw => { s with files := ended.state, lock := some (i, raw) }
  | .raised _ =>
    { s.setLease i ((s.process i).lease.journaled false) with files := ended.state }
  | .died => { s.crashed i with files := ended.state }

/-- The host after the update of a process, which gives back the lock. -/
def updated (s : Host ι) (i : ι) (ended : Ended (Bytes × Bytes) CoordinationFiles String Unit) :
    Host ι :=
  match ended.outcome with
  | .returned _ =>
    { s.setLease i ((s.process i).lease.journaled true) with files := ended.state, lock := none }
  | .raised _ =>
    { s.setLease i ((s.process i).lease.journaled false) with files := ended.state, lock := none }
  | .died => { s.crashed i with files := ended.state, lock := none }

end Host

/-- One step of the host. -/
inductive HostStep [DecidableEq ι] : Host ι → HostEvent ι → Host ι → Prop
  | call {s : Host ι} {i : ι} {c : LeaseCall} {lease : MemoryLease} (hlive : s.Live i)
      (hlease : (s.process i).lease.call c = some lease) :
      HostStep s (.call i c) (s.setLease i lease)
  /-- The ledger of the process has one entry. -/
  | ledger {s : Host ι} {i : ι} {lease : MemoryLease} (hlive : s.Live i)
      (hlease : (s.process i).lease.advance (s.process i).lease.direct = some lease) :
      HostStep s (.ledger i) (s.setLease i lease)
  | ledgerRaises {s : Host ι} {i : ι} {lease : MemoryLease} (hlive : s.Live i)
      (hlease : (s.process i).lease.ledgerRaises = some lease) :
      HostStep s (.ledgerRaises i) (s.setLease i lease)
  /-- The document cannot be opened or locked. -/
  | lockRaises {s : Host ι} {i : ι} {update : JournalUpdate} (hlive : s.Live i)
      (hpending : (s.process i).lease.pending = some update)
      (hlock : ∀ raw, s.lock ≠ some (i, raw)) :
      HostStep s (.lockRaises i) (s.setLease i ((s.process i).lease.journaled false))
  /-- The process takes the lock and recovers the document with a new handle. -/
  | recover {s : Host ι} {i : ι} {update : JournalUpdate} {g : CoordinationFiles}
      {processAlive : Int → List Char → Bool} {faults : Schedule (Bytes × Bytes) String}
      (hlive : s.Live i) (hpending : (s.process i).lease.pending = some update)
      (hlock : s.lock = none) (hg : Reopened s.files g) (hreports : s.Reports cfg processAlive) :
      HostStep s (.recover i)
        (s.recovered i (recoverLockedPayload cfg.journal processAlive g faults))
  /-- The process updates the document and gives back the lock. -/
  | update {s : Host ι} {i : ι} {update : JournalUpdate} {raw : Bytes} {now : Nat}
      {processAlive : Int → List Char → Bool} {faults : Schedule (Bytes × Bytes) String}
      (hlive : s.Live i) (hpending : (s.process i).lease.pending = some update)
      (hlock : s.lock = some (i, raw)) (hreports : s.Reports cfg processAlive) :
      HostStep s (.update i)
        (s.updated i (updateState cfg i update now processAlive raw s.files faults))
  | crash {s : Host ι} {i : ι} (hlive : s.Live i) : HostStep s (.crash i) (s.crashed i)

/-! ### What the document shows -/

section ImageShows

variable (live : ι → Prop) (J : ι → Nat)

/-- The byte string is a document within the capacity, and the live processes have the
records that `J` says. -/
def ImageShows (raw : Bytes) : Prop :=
  ∃ leases, decodeState cfg raw = .ok leases ∧ totalReserved leases ≤ cfg.capacity ∧
    ∀ i, live i → recorded leases (cfg.identity i) = J i

/-- The images of a journal record that recovery may choose. -/
def RecordShows (record : JournalRecord) : Prop :=
  match record.phase with
  | .committed => record.after.length ≤ cfg.journal.maxPayloadBytes ∧
    ImageShows cfg live J record.after
  | .prepared => ∃ k, record.pid = (cfg.identity k).pid ∧ record.start = (cfg.identity k).start ∧
      record.before.length ≤ cfg.journal.maxPayloadBytes ∧
      record.after.length ≤ cfg.journal.maxPayloadBytes ∧
      ImageShows cfg live J record.before ∧ ImageShows cfg (fun i => live i ∧ i ≠ k) J record.after

/-- There is no journal, or one with a record. -/
def JournalShows (journal : Option Bytes) : Prop :=
  journal = none ∨ ∃ record, Holds cfg.journal record journal ∧ RecordShows cfg live J record

/-- Whatever the files are recovered to shows `J`. -/
structure FilesShow (files : CoordinationFiles) : Prop where
  journal : JournalShows cfg live J files.journal
  main : files.journal = none → files.buffer = [] ∧
    files.main.length ≤ cfg.journal.maxPayloadBytes ∧ ImageShows cfg live J files.main

end ImageShows

variable {cfg} {live live' : ι → Prop} {J J' : ι → Nat}

variable {raw : Bytes}

theorem ImageShows.mono (h : ImageShows cfg live J raw) (hlive : ∀ i, live' i → live i)
    (hJ : ∀ i, live' i → J' i = J i) : ImageShows cfg live' J' raw := by
  obtain ⟨leases, hdecode, htotal, hrecorded⟩ := h
  exact ⟨leases, hdecode, htotal, fun i hi => (hrecorded i (hlive i hi)).trans (hJ i hi).symm⟩

theorem JournalShows.mono {journal : Option Bytes} (h : JournalShows cfg live J journal)
    (hlive : ∀ i, live' i → live i) (hJ : ∀ i, live' i → J' i = J i) :
    JournalShows cfg live' J' journal := by
  refine h.imp_right ?_
  rintro ⟨⟨phase, pid, start, before, after⟩, hholds, hrecord⟩
  refine ⟨_, hholds, ?_⟩
  cases phase with
  | committed => exact ⟨hrecord.1, hrecord.2.mono hlive hJ⟩
  | prepared =>
    obtain ⟨k, hpid, hstart, hbefore, hafter, hshows, hothers⟩ := hrecord
    exact ⟨k, hpid, hstart, hbefore, hafter, hshows.mono hlive hJ,
      hothers.mono (fun i hi => ⟨hlive i hi.1, hi.2⟩) fun i hi => hJ i hi.1⟩

variable {f : CoordinationFiles}

theorem FilesShow.mono (h : FilesShow cfg live J f)
    (hlive : ∀ i, live' i → live i) (hJ : ∀ i, live' i → J' i = J i) :
    FilesShow cfg live' J' f where
  journal := h.journal.mono hlive hJ
  main := fun hnone => ⟨(h.main hnone).1, (h.main hnone).2.1, (h.main hnone).2.2.mono hlive hJ⟩

variable {g : CoordinationFiles}

theorem FilesShow.reopened (h : FilesShow cfg live J f) (hg : Reopened f g) :
    FilesShow cfg live J g where
  journal := by
    rw [hg.journal]
    exact h.journal
  main := by
    intro hnone
    rw [hg.journal] at hnone
    obtain ⟨hbuffer, hmain⟩ := h.main hnone
    rw [hg.main hbuffer]
    exact ⟨hg.buffer, hmain⟩

theorem RestsAt.filesShow
    (h : RestsAt cfg.journal (JournalShows cfg live J) raw f) (hraw : ImageShows cfg live J raw) :
    FilesShow cfg live J f where
  journal := h.journal
  main := by
    intro _
    rw [h.main]
    exact ⟨h.buffer, h.bounded, hraw⟩

theorem SettledAt.journalShows {image : Bytes}
    (h : SettledAt cfg.journal image f) (himage : ImageShows cfg live J image) :
    RestsAt cfg.journal (JournalShows cfg live J) image f := by
  refine ⟨h.main, h.buffer, h.bounded, h.journal.imp_right ?_⟩
  rintro ⟨record, hholds, hphase, hafter⟩
  refine ⟨record, hholds, ?_⟩
  rw [RecordShows, hphase, hafter]
  exact ⟨h.bounded, himage⟩

variable {record : JournalRecord}

theorem Holds.filesShow (h : Holds cfg.journal record f.journal)
    (hrecord : RecordShows cfg live J record) : FilesShow cfg live J f := by
  exact ⟨.inr ⟨record, h, hrecord⟩, fun hnone => absurd hnone h.ne_none⟩

theorem FilesShow.exists_shows (h : FilesShow cfg live J f) : ∃ raw, ImageShows cfg live J raw := by
  rcases h.journal with hnone | ⟨⟨phase, pid, start, before, after⟩, -, hrecord⟩
  · exact ⟨f.main, (h.main hnone).2.2⟩
  · cases phase with
    | committed => exact ⟨after, hrecord.2⟩
    | prepared =>
      obtain ⟨k, -, -, -, -, hshows, -⟩ := hrecord
      exact ⟨before, hshows⟩

/-! ### Recovery -/

variable {processAlive : Int → List Char → Bool}

/-- The image that recovery chooses shows `J`: the second image of a prepared update is
chosen only if its process is dead. -/
theorem RecordShows.target (h : RecordShows cfg live J record)
    (hreports : ∀ i, live i → processAlive (cfg.identity i).pid (cfg.identity i).start = true) :
    (recoveryTarget processAlive record).length ≤ cfg.journal.maxPayloadBytes ∧
      ImageShows cfg live J (recoveryTarget processAlive record) := by
  obtain ⟨phase, pid, start, before, after⟩ := record
  cases phase with
  | committed => exact h
  | prepared =>
    obtain ⟨k, rfl, rfl, hbefore, hafter, hshows, hothers⟩ := h
    rw [recoveryTarget]
    split
    · rename_i hdead
      have hreported := hdead.resolve_left (by simp)
      refine ⟨hafter, hothers.mono (fun i hi => ⟨hi, ?_⟩) fun _ _ => rfl⟩
      rintro rfl
      rw [show processAlive (cfg.identity i).pid (cfg.identity i).start = true from
        hreports i hi] at hreported
      cases hreported
    · exact ⟨hbefore, hshows⟩

/-- **Recovery**, whatever goes wrong in it, leaves files that show `J`; if it returns,
the main file is at what it returns. -/
theorem recoverLockedPayload_shows
    (hreports : ∀ i, live i → processAlive (cfg.identity i).pid (cfg.identity i).start = true) :
    Ensures (FilesShow cfg live J) (recoverLockedPayload cfg.journal processAlive)
      (fun raw f => ImageShows cfg live J raw ∧
        RestsAt cfg.journal (JournalShows cfg live J) raw f)
      (FilesShow cfg live J) (FilesShow cfg live J) := by
  intro f faults hf
  rcases hf.journal with hnone | ⟨record, hholds, hrecord⟩
  · -- there is no journal: the main file is the document
    obtain ⟨hbuffer, hbounded, hmain⟩ := hf.main hnone
    have hsettled : ∀ f', SettledAt cfg.journal f.main f' →
        RestsAt cfg.journal (JournalShows cfg live J) f.main f' := fun f' h => h.journalShows hmain
    refine Ensures.mono (recoverLockedPayload_settled processAlive f.main) (fun _ h => h) ?_
      (fun f' h => (hsettled f' h).filesShow hmain) (fun f' h => (hsettled f' h).filesShow hmain)
      f faults ⟨rfl, hbuffer, hbounded, .inl hnone⟩
    rintro raw f' ⟨rfl, h⟩
    exact ⟨hmain, hsettled f' h⟩
  · obtain ⟨hbounded, htarget⟩ := hrecord.target hreports
    have hinterrupted : ∀ f', Holds cfg.journal record f'.journal ∨
        SettledAt cfg.journal (recoveryTarget processAlive record) f' →
          FilesShow cfg live J f' := by
      rintro f' (h | h)
      · exact h.filesShow hrecord
      · exact (h.journalShows htarget).filesShow htarget
    refine Ensures.mono (recoverLockedPayload_holds processAlive hbounded) (fun _ h => h) ?_
      hinterrupted hinterrupted f faults hholds
    rintro raw f' ⟨rfl, hmain, hbuffer, hjournal⟩
    exact ⟨htarget, hmain, hbuffer, hbounded, hjournal.imp_right fun h => ⟨record, h, hrecord⟩⟩

/-! ### Updates -/

variable {a b : MemoryRegistry}

theorem recorded_perm (h : a.entries.Perm b.entries) (k : ProcessId) :
    recorded a k = recorded b k := by
  rw [recorded, AList.perm_lookup h, recorded]

theorem totalReserved_perm (h : a.entries.Perm b.entries) : totalReserved a = totalReserved b := by
  rw [totalReserved, totalReserved]
  exact (h.map _).sum_eq

variable {leases : MemoryRegistry}

theorem decodeState_dumps (h : (cfg.codec.dumps leases).length ≤ cfg.journal.maxPayloadBytes) :
    ∃ leases', decodeState cfg (cfg.codec.dumps leases) = .ok leases' ∧
      leases'.entries.Perm leases.entries := by
  rw [decodeState, if_neg (cfg.codec.dumps_ne_nil leases), if_neg (by omega)]
  exact cfg.codec.loads_dumps leases

theorem imageShows_dumps (h : (cfg.codec.dumps leases).length ≤ cfg.journal.maxPayloadBytes)
    (htotal : totalReserved leases ≤ cfg.capacity)
    (hrecorded : ∀ i, live i → recorded leases (cfg.identity i) = J i) :
    ImageShows cfg live J (cfg.codec.dumps leases) := by
  obtain ⟨leases', hdecode, hperm⟩ := decodeState_dumps h
  refine ⟨leases', hdecode, ?_, fun i hi => ?_⟩
  · rw [totalReserved_perm hperm]
    exact htotal
  · rw [recorded_perm hperm]
    exact hrecorded i hi

theorem recorded_of_dumps_eq (h : cfg.codec.dumps a = cfg.codec.dumps b)
    (k : ProcessId) : recorded a k = recorded b k := by
  obtain ⟨a', ha, haperm⟩ := cfg.codec.loads_dumps a
  obtain ⟨b', hb, hbperm⟩ := cfg.codec.loads_dumps b
  rw [h, hb] at ha
  cases ha
  rw [← recorded_perm haperm, recorded_perm hbperm]

section Update

variable [DecidableEq ι] {i : ι} {update : JournalUpdate} {now : Nat}
  {processAlive : Int → List Char → Bool} {leases leases' : MemoryRegistry} (hlive : live i)
  (hreports : ∀ j, live j → processAlive (cfg.identity j).pid (cfg.identity j).start = true)
  (hamount : (∀ current directTotal requested, update = .grow current directTotal requested →
    requested ≤ current) → update.amount ≤ J i)

include hlive hreports hamount

/-- An update changes the record of its process and of no other live process.  It is tested
against the capacity, or records no more than before. -/
theorem run_shows (htotal : totalReserved leases ≤ cfg.capacity)
    (hrecorded : ∀ j, live j → recorded leases (cfg.identity j) = J j)
    (hrun : update.run (cfg.identity i) cfg.capacity now processAlive leases = .ok leases') :
    totalReserved leases' ≤ cfg.capacity ∧
      ∀ j, live j → recorded leases' (cfg.identity j) = Function.update J i update.amount j := by
  obtain ⟨hown, hothers, hsum⟩ := JournalUpdate.run_ok hrun
  refine ⟨?_, fun j hj => ?_⟩
  · rcases hsum with ⟨-, -, -, -, -, hsum⟩ | ⟨hnot, hsum⟩
    · exact hsum
    · have hle := hamount hnot
      have hsum := hsum (hreports i hlive)
      rw [hrecorded i hlive] at hsum
      omega
  · by_cases hne : j = i
    · subst hne
      rw [update_self, hown]
    · rw [update_of_ne hne, hothers _ (fun h => hne (cfg.identity_injective h))
        (hreports j hj), hrecorded j hj]

/-- **The update of a live process**, whatever goes wrong in it.  If it returns, `J` has
changed at the process.  If it raises, `J` is what it was.  If the process dies in it,
the files show `J` without the process. -/
theorem updateState_shows (now : Nat) (hraw : ImageShows cfg live J raw) :
    Ensures (RestsAt cfg.journal (JournalShows cfg live J) raw)
      (updateState cfg i update now processAlive raw)
      (fun _ => FilesShow cfg live (Function.update J i update.amount))
      (FilesShow cfg live J) (FilesShow cfg (fun j => live j ∧ j ≠ i) J) := by
  have hkeep : ∀ f, RestsAt cfg.journal (JournalShows cfg live J) raw f → FilesShow cfg live J f :=
    fun f h => h.filesShow hraw
  have hfewer : ∀ f, FilesShow cfg live J f → FilesShow cfg (fun j => live j ∧ j ≠ i) J f :=
    fun f h => h.mono (fun j hj => hj.1) fun _ _ => rfl
  have hsettled : ∀ f, SettledAt cfg.journal raw f → FilesShow cfg live J f :=
    fun f h => (h.journalShows hraw).filesShow hraw
  obtain ⟨leases, hdecode, htotal, hrecorded⟩ := id hraw
  rw [updateState, hdecode]
  refine ensures_ofExcept_bind ?_ nofun
  rintro found ⟨⟩
  rcases hrun : update.run (cfg.identity i) cfg.capacity now processAlive leases with e | out
  · exact ensures_ofExcept_bind nofun fun _ _ => hkeep
  refine ensures_ofExcept_bind ?_ nofun
  rintro _ ⟨⟩
  dsimp only
  split
  · exact ensures_raise hkeep
  rename_i hsize
  rw [not_lt] at hsize
  obtain ⟨htotal', hrecorded'⟩ := run_shows hlive hreports hamount htotal hrecorded hrun
  have hnew : ImageShows cfg live (Function.update J i update.amount) (cfg.codec.dumps out) :=
    imageShows_dumps hsize htotal' hrecorded'
  have hothers : ImageShows cfg (fun j => live j ∧ j ≠ i) J (cfg.codec.dumps out) :=
    hnew.mono (fun j hj => hj.1) fun j hj => (update_of_ne hj.2 _ _).symm
  -- if no record has changed, `J` has not changed either
  have hsame : (∀ k, recorded out k = recorded leases k) → ∀ f,
      RestsAt cfg.journal (JournalShows cfg live J) raw f →
      FilesShow cfg live (Function.update J i update.amount) f := by
    intro hsame f h
    refine (hkeep f h).mono (fun _ hj => hj) fun j hj => ?_
    rw [← hrecorded' j hj, hsame, hrecorded j hj]
  split
  · refine ensures_of_pre (fun f h => h.bounded) fun hbounded => ?_
    have hprepared : RecordShows cfg live J (preparedRecord raw (cfg.codec.dumps out)
        (cfg.identity i).pid (cfg.identity i).start) :=
      ⟨i, rfl, List.take_of_length_le (cfg.start_length i), hbounded, hsize, hraw, hothers⟩
    refine (commitLockedPayload_rests cfg.journal (JournalShows cfg live J) raw _ _
      (cfg.pid_pos i)).mono (fun _ h => h) ?_ ?_ ?_
    · rintro - f (h | ⟨heq, h⟩)
      · exact (h.journalShows hnew).filesShow hnew
      · obtain ⟨back, hback, hperm⟩ := decodeState_dumps hsize
        rw [← heq, hdecode] at hback
        cases hback
        exact hsame (fun k => (recorded_perm hperm k).symm) f h
    · rintro f (h | h | h)
      · exact hkeep f h
      · exact hsettled f h
      · exact h.filesShow hprepared
    · rintro f (h | h | h | h)
      · exact hfewer f (hkeep f h)
      · exact hfewer f (hsettled f h)
      · exact (h.journalShows hothers).filesShow hothers
      · exact hfewer f (h.filesShow hprepared)
  · rename_i hequal
    exact ensures_ret (hsame (recorded_of_dumps_eq (not_not.mp hequal)))

end Update

/-! ### The invariant of the host -/

namespace Host

/-- **The invariant**: the leases may rely on what they have read, no live process holds
more than the abstract journal says, and the files show the abstract journal, whoever
recovers them. -/
structure Sound (cfg : HostConfig ι) (J : ι → Nat) (s : Host ι) : Prop where
  consistent : ∀ i, (s.process i).lease.Consistent 0
  covered : ∀ i, s.Live i → (s.process i).lease.held ≤ J i
  unlocked : s.lock = none → FilesShow cfg s.Live J s.files
  locked : ∀ i raw, s.lock = some (i, raw) → ImageShows cfg s.Live J raw ∧
    RestsAt cfg.journal (JournalShows cfg s.Live J) raw s.files

variable {s : Host ι}

theorem Sound.filesShow (h : Sound cfg J s) : FilesShow cfg s.Live J s.files := by
  rcases hlock : s.lock with - | ⟨i, raw⟩
  · exact h.unlocked hlock
  · obtain ⟨hraw, hrests⟩ := h.locked i raw hlock
    exact hrests.filesShow hraw

theorem Sound.start (cfg : HostConfig ι) : Sound cfg (fun _ => 0) (start ι) where
  consistent := fun _ => trivial
  covered := fun _ _ => le_rfl
  unlocked := fun _ => ⟨.inl rfl, fun _ => ⟨rfl, Nat.zero_le _, ∅, rfl, Nat.zero_le _,
    fun _ _ => rfl⟩⟩
  locked := nofun

theorem Sound.of_unlocked (hlock : s.lock = none)
    (hconsistent : ∀ i, (s.process i).lease.Consistent 0)
    (hcovered : ∀ i, s.Live i → (s.process i).lease.held ≤ J i)
    (hfiles : FilesShow cfg s.Live J s.files) : Sound cfg J s := by
  refine ⟨hconsistent, hcovered, fun _ => hfiles, fun i raw h => ?_⟩
  rw [hlock] at h
  cases h

theorem Sound.sum_direct_le [Fintype ι] (h : Sound cfg J s) :
    ∑ i with (s.process i).alive = true, (s.process i).lease.direct ≤ cfg.capacity := by
  obtain ⟨raw, leases, -, htotal, hrecorded⟩ := h.filesShow.exists_shows
  calc ∑ i with (s.process i).alive = true, (s.process i).lease.direct
      ≤ ∑ i with (s.process i).alive = true, recorded leases (cfg.identity i) := by
        apply Finset.sum_le_sum
        intro i hi
        have hlive : s.Live i := (Finset.mem_filter.mp hi).2
        rw [hrecorded i hlive]
        exact (MemoryLease.direct_le_held (h.consistent i)).trans (h.covered i hlive)
    _ ≤ totalReserved leases := sum_recorded_le _ cfg.identity_injective leases
    _ ≤ cfg.capacity := htotal

variable [DecidableEq ι] {s : Host ι} {i : ι} {lease : MemoryLease}

theorem lease_setLease_self : ((s.setLease i lease).process i).lease = lease := by
  show (update s.process i _ i).lease = lease
  rw [update_self]

theorem lease_setLease_of_ne {j : ι} (h : j ≠ i) :
    (s.setLease i lease).process j = s.process j := by
  show update s.process i _ j = s.process j
  rw [update_of_ne h]

@[simp] theorem live_setLease : (s.setLease i lease).Live = s.Live := by
  funext j
  by_cases h : j = i
  · subst h
    show ((Function.update s.process j _ j).alive = true) = _
    rw [update_self]
    rfl
  · show (((s.setLease i lease).process j).alive = true) = _
    rw [lease_setLease_of_ne h]
    rfl

theorem live_crashed : (s.crashed i).Live = fun j => s.Live j ∧ j ≠ i := by
  funext j
  show ((update s.process i _ j).alive = true) = _
  by_cases h : j = i
  · subst h
    simp
  · rw [update_of_ne h]
    exact propext ⟨fun hj => ⟨hj, h⟩, And.left⟩

theorem lease_crashed (j : ι) : ((s.crashed i).process j).lease = (s.process j).lease := by
  show (update s.process i _ j).lease = _
  by_cases h : j = i
  · subst h
    rw [update_self]
  · rw [update_of_ne h]

section

variable (h : Sound cfg J s)

include h

theorem Sound.consistent_setLease (hlease : lease.Consistent 0) (j : ι) :
    ((s.setLease i lease).process j).lease.Consistent 0 := by
  by_cases hj : j = i
  · subst hj
    rwa [lease_setLease_self]
  · rw [lease_setLease_of_ne hj]
    exact h.consistent j

theorem Sound.covered_setLease (hother : ∀ j, j ≠ i → J' j = J j)
    (hheld : s.Live i → lease.held ≤ J' i) (j : ι) (hj : (s.setLease i lease).Live j) :
    ((s.setLease i lease).process j).lease.held ≤ J' j := by
  rw [live_setLease] at hj
  by_cases hne : j = i
  · subst hne
    rw [lease_setLease_self]
    exact hheld hj
  · rw [lease_setLease_of_ne hne, hother j hne]
    exact h.covered j hj

theorem Sound.setLease (hlease : lease.Consistent 0)
    (hheld : lease.held ≤ (s.process i).lease.held) : Sound cfg J (s.setLease i lease) where
  consistent := h.consistent_setLease hlease
  covered := h.covered_setLease (fun _ _ => rfl) fun hi => hheld.trans (h.covered i hi)
  unlocked := by
    rw [live_setLease]
    exact h.unlocked
  locked := by
    rw [live_setLease]
    exact h.locked

/-- A crash keeps the host sound: it only leaves fewer live processes. -/
theorem Sound.crashed (i : ι) : Sound cfg J (s.crashed i) := by
  have hlive : ∀ j, (s.crashed i).Live j → s.Live j := by
    intro j hj
    rw [live_crashed] at hj
    exact hj.1
  refine ⟨fun j => ?_, fun j hj => ?_, fun _ => ?_, fun j raw hlock => ?_⟩
  · rw [lease_crashed]
    exact h.consistent j
  · rw [lease_crashed]
    exact h.covered j (hlive j hj)
  · exact h.filesShow.mono hlive fun _ _ => rfl
  · obtain ⟨hlock, -⟩ := Option.filter_eq_some_iff.mp hlock
    obtain ⟨hraw, hrests⟩ := h.locked j raw hlock
    exact ⟨hraw.mono hlive fun _ _ => rfl, hrests.main, hrests.buffer, hrests.bounded,
      hrests.journal.mono hlive fun _ _ => rfl⟩

variable {update : JournalUpdate}

/-- **The recovery of a process.** -/
theorem Sound.recovered (hpending : (s.process i).lease.pending = some update)
    (hlock : s.lock = none) (hg : Reopened s.files g) (hreports : s.Reports cfg processAlive)
    (faults : Schedule (Bytes × Bytes) String) :
    Sound cfg J (s.recovered i (recoverLockedPayload cfg.journal processAlive g faults)) := by
  have hend := recoverLockedPayload_shows hreports g faults ((h.unlocked hlock).reopened hg)
  generalize recoverLockedPayload cfg.journal processAlive g faults = ended at hend ⊢
  obtain ⟨outcome, f, rest⟩ := ended
  rcases outcome with raw | e | -
  · refine ⟨h.consistent, h.covered, nofun, ?_⟩
    rintro j raw' ⟨⟩
    exact hend
  · obtain ⟨-, -, hlease, hheld⟩ := MemoryLease.held_journaled (h.consistent i) hpending
    have hset : Sound cfg J (s.setLease i _) := h.setLease hlease hheld
    refine Sound.of_unlocked hlock hset.consistent hset.covered ?_
    show FilesShow cfg (s.setLease i _).Live J f
    rwa [live_setLease]
  · have hcrashed := h.crashed i
    refine Sound.of_unlocked ?_ hcrashed.consistent hcrashed.covered ?_
    · show s.lock.filter _ = none
      rw [hlock]
      rfl
    · show FilesShow cfg (s.crashed i).Live J f
      rw [live_crashed]
      exact FilesShow.mono hend (fun j hj => hj.1) fun _ _ => rfl

/-- **The update of a process.** -/
theorem Sound.updated {now : Nat} (hlive : s.Live i)
    (hpending : (s.process i).lease.pending = some update) (hlock : s.lock = some (i, raw))
    (hreports : s.Reports cfg processAlive) (faults : Schedule (Bytes × Bytes) String) :
    ∃ J', Sound cfg J'
      (s.updated i (updateState cfg i update now processAlive raw s.files faults)) := by
  obtain ⟨hraw, hrests⟩ := h.locked i raw hlock
  have hamount : (∀ current directTotal requested,
      update = .grow current directTotal requested → requested ≤ current) →
      update.amount ≤ J i := by
    intro hnot
    have hle := MemoryLease.amount_le_held (h.consistent i) hpending hnot
    have hcovered := h.covered i hlive
    omega
  have hend := updateState_shows hlive hreports hamount now hraw s.files faults hrests
  generalize updateState cfg i update now processAlive raw s.files faults = ended at hend ⊢
  obtain ⟨outcome, f, rest⟩ := ended
  rcases outcome with ⟨⟩ | e | -
  · obtain ⟨-, ⟨hlease, hheld⟩, -⟩ := MemoryLease.held_journaled (h.consistent i) hpending
    rw [Nat.zero_add] at hheld
    refine ⟨Function.update J i update.amount, Sound.of_unlocked rfl
      (h.consistent_setLease hlease) (h.covered_setLease (fun j hj => ?_) fun _ => ?_) ?_⟩
    · exact update_of_ne hj _ _
    · rw [update_self]
      exact hheld.le
    · show FilesShow cfg (s.setLease i _).Live _ f
      rwa [live_setLease]
  · obtain ⟨-, -, hlease, hheld⟩ := MemoryLease.held_journaled (h.consistent i) hpending
    have hset : Sound cfg J (s.setLease i _) := h.setLease hlease hheld
    refine ⟨J, Sound.of_unlocked rfl hset.consistent hset.covered ?_⟩
    show FilesShow cfg (s.setLease i _).Live J f
    rwa [live_setLease]
  · have hcrashed := h.crashed i
    refine ⟨J, Sound.of_unlocked rfl hcrashed.consistent hcrashed.covered ?_⟩
    show FilesShow cfg (s.crashed i).Live J f
    rwa [live_crashed]

/-- **The step lemma.** -/
theorem Sound.step {e : HostEvent ι} {s' : Host ι} (hs : HostStep cfg s e s') :
    ∃ J', Sound cfg J' s' := by
  cases hs with
  | call hlive hlease =>
    obtain ⟨-, hconsistent, -, hheld⟩ := MemoryLease.call_consistent hlease
    exact ⟨J, h.setLease hconsistent hheld.le⟩
  | @ledger i lease hlive hlease =>
    rw [← Nat.zero_add (s.process i).lease.direct] at hlease
    obtain ⟨-, hconsistent, hheld⟩ := MemoryLease.advance_consistent (h.consistent i) hlease
    exact ⟨J, h.setLease hconsistent hheld⟩
  | @ledgerRaises i lease hlive hlease =>
    obtain ⟨-, hconsistent, hheld⟩ := MemoryLease.ledgerRaises_consistent (h.consistent i) hlease
    exact ⟨J, h.setLease hconsistent hheld⟩
  | @lockRaises i update hlive hpending hlock =>
    obtain ⟨-, -, hconsistent, hheld⟩ := MemoryLease.held_journaled (h.consistent i) hpending
    exact ⟨J, h.setLease hconsistent hheld⟩
  | recover hlive hpending hlock hg hreports =>
    exact ⟨J, h.recovered hpending hlock hg hreports _⟩
  | update hlive hpending hlock hreports => exact h.updated hlive hpending hlock hreports _
  | @crash i hlive => exact ⟨J, h.crashed i⟩

end

/-- **The processes of a host never reserve more than the capacity**, in any state of
any run: with any interleaving, any failures and crashes at any operation. -/
theorem sum_direct_le_capacity [Fintype ι] (cfg : HostConfig ι) {events : List (HostEvent ι)}
    {s : Host ι} (h : Runs (HostStep cfg) (Host.start ι) events s) :
    ∑ i with (s.process i).alive = true, (s.process i).lease.direct ≤ cfg.capacity := by
  obtain ⟨J, hsound⟩ := h.invariant (I := fun s => ∃ J, Sound cfg J s) ⟨_, Sound.start cfg⟩
    fun _ _ _ hsound hs => hsound.elim fun _ hsound => hsound.step hs
  exact hsound.sum_direct_le

end Host

/-! ### Two processes -/

/-- The document in which the first process has 60 bytes. -/
def grantedImage : Bytes :=
  bytes "\x7b\"leases\":\x7b\"1:7\":\x7b\"pid\":1,\"reserved\":60,\"start\":\"7\"," ++
    bytes "\"updated\":1.0\x7d\x7d,\"version\":1\x7d"

/-- SHA-256 of the empty document, of this one, and of the one in which the second process
has 30 bytes. -/
def hostDigest (payload : Bytes) : String :=
  if payload = [] then "e3b0c44298fc1c149afbf4c8996fb92427ae41e4649b934ca495991b7852b855"
  else if payload = grantedImage then
    "2d89cdfa1e0aa971d430cb3697f69c78dd0e1638a036857fb24db55fddb8db3d"
  else "93dec9fe580713fa8e223195e61110a9602dbab675c8d0a21c3787602931506a"

/-- A host with two processes. -/
def twoProcesses : HostConfig Bool where
  journal := ⟨headerCodec, hostDigest, 1024⟩
  codec := memoryCodec
  capacity := 100
  identity := fun b => if b then ⟨1, ['7']⟩ else ⟨2, ['8']⟩
  identity_injective := by decide
  pid_pos := by decide
  start_length := by decide

namespace Host

variable [DecidableEq ι] {cfg : HostConfig ι} {s : Host ι} {i : ι} {update : JournalUpdate}
  {processAlive : Int → List Char → Bool} {faults : Schedule (Bytes × Bytes) String}

theorem HostStep.recover_ends {ended : Ended (Bytes × Bytes) CoordinationFiles String Bytes}
    (hlive : s.Live i) (hpending : (s.process i).lease.pending = some update)
    (hlock : s.lock = none) (hbuffer : s.files.buffer = []) (hreports : s.Reports cfg processAlive)
    (hend : recoverLockedPayload cfg.journal processAlive s.files faults = ended) :
    HostStep cfg s (.recover i) (s.recovered i ended) :=
  hend ▸ .recover hlive hpending hlock ⟨rfl, hbuffer, fun _ => rfl⟩ hreports

theorem HostStep.update_ends {raw : Bytes} {now : Nat}
    {ended : Ended (Bytes × Bytes) CoordinationFiles String Unit}
    (hlive : s.Live i) (hpending : (s.process i).lease.pending = some update)
    (hlock : s.lock = some (i, raw)) (hreports : s.Reports cfg processAlive)
    (hend : updateState cfg i update now processAlive raw s.files faults = ended) :
    HostStep cfg s (.update i) (s.updated i ended) :=
  hend ▸ .update hlive hpending hlock hreports

theorem recover_empty : recoverLockedPayload twoProcesses.journal (fun _ _ => true)
    ⟨[], [], none, none⟩ [] = ⟨.returned [], ⟨[], [], none, none⟩, []⟩ := by
  decide +kernel

theorem recover_granted : recoverLockedPayload twoProcesses.journal (fun _ _ => true)
    ⟨grantedImage, [], none, none⟩ []
      = ⟨.returned grantedImage, ⟨grantedImage, [], none, none⟩, []⟩ := by
  decide +kernel

theorem updateState_grants : updateState twoProcesses true (.grow 0 0 60) 1 (fun _ _ => true) []
    ⟨[], [], none, none⟩ [] = ⟨.returned (), ⟨grantedImage, [], none, none⟩, []⟩ := by
  decide +kernel

theorem updateState_refuses : updateState twoProcesses false (.grow 0 0 60) 2 (fun _ _ => true)
    grantedImage ⟨grantedImage, [], none, none⟩ []
      = ⟨.raised "cross-process resident-memory capacity exhausted",
        ⟨grantedImage, [], none, none⟩, []⟩ := by
  decide +kernel

/-- The second process is about to read the document, while the first one holds 60 bytes. -/
def asking (requested : Nat) : Host Bool where
  files := ⟨grantedImage, [], none, none⟩
  lock := none
  process := fun b => ⟨true, if b then { MemoryLease.new with direct := 60 }
    else { MemoryLease.new with phase := .growing 0 0 requested }⟩

/-- The events that lead there. -/
def askingEvents (requested : Nat) : List (HostEvent Bool) :=
  [.call true (.resize 60), .ledger true, .recover true, .update true, .ledger true,
    .call false (.resize requested), .ledger false]

theorem runs_asking (requested : Nat) :
    Runs (HostStep twoProcesses) (Host.start Bool) (askingEvents requested) (asking requested) := by
  have hreports : ∀ s : Host Bool, s.Reports twoProcesses fun _ _ => true := fun _ _ _ => rfl
  have hstart : Runs (HostStep twoProcesses) (Host.start Bool) [] _ := .nil
  have hcall := hstart.snoc (.call (i := true) (c := .resize 60) rfl rfl)
  have hledger := hcall.snoc (.ledger (i := true) rfl rfl)
  have hrecover := hledger.snoc
    (HostStep.recover_ends (i := true) rfl rfl rfl rfl (hreports _) recover_empty)
  have hupdate := hrecover.snoc
    (HostStep.update_ends (i := true) rfl rfl rfl (hreports _) updateState_grants)
  have hgranted := hupdate.snoc (.ledger (i := true) rfl rfl)
  have hcall' := hgranted.snoc (.call (i := false) (c := .resize requested) rfl rfl)
  have hledger' := hcall'.snoc (.ledger (i := false) rfl rfl)
  convert hledger' using 1
  · rfl
  · refine Host.ext rfl rfl (funext fun b => ?_)
    cases b <;> rfl

/-- Both processes want more than half of the capacity: the first one is granted it, the second
one is refused and holds nothing. -/
theorem sum_direct_le_capacity_twoProcesses : ∃ s : Host Bool,
    Runs (HostStep twoProcesses) (Host.start Bool)
      (askingEvents 60 ++ [.recover false] ++ [.update false]) s ∧
    (s.process true).lease.direct = 60 ∧ (s.process false).lease = MemoryLease.new ∧
    ∑ i with (s.process i).alive = true, (s.process i).lease.direct ≤ 100 := by
  have hrecover := (runs_asking 60).snoc
    (HostStep.recover_ends (i := false) rfl rfl rfl rfl (fun _ _ => rfl) recover_granted)
  have hupdate := hrecover.snoc
    (HostStep.update_ends (i := false) rfl rfl rfl (fun _ _ => rfl) updateState_refuses)
  exact ⟨_, hupdate, rfl, rfl, sum_direct_le_capacity twoProcesses hupdate⟩

/-- The commit of the second process, which dies when it has emptied the main file. -/
def dyingUpdate : Ended (Bytes × Bytes) CoordinationFiles String Unit :=
  updateState twoProcesses false (.grow 0 0 30) 2 (fun _ _ => true) grantedImage
    ⟨grantedImage, [], none, none⟩ (List.replicate 19 none ++ [some (.die ([], []))])

theorem dyingUpdate_dies : ∃ f rest, dyingUpdate = ⟨.died, f, rest⟩ ∧ f.main = [] ∧
    f.buffer = [] := by
  have hends : dyingUpdate.outcome = .died ∧ dyingUpdate.state.main = [] ∧
      dyingUpdate.state.buffer = [] := by
    decide +kernel
  generalize dyingUpdate = ended at hends
  obtain ⟨outcome, f, rest⟩ := ended
  obtain ⟨rfl, hmain, hbuffer⟩ := hends
  exact ⟨f, rest, rfl, hmain, hbuffer⟩

end Host

end SchemaSanitizer
