/-
SchemaSanitizer/Journal.lean

In-place updates of coordination documents through a journal
(`core_impl/coordination_journal.py`).

The main file keeps its inode, because it is the target of the lock; a sidecar
journal holds the images before and after an update while the main file is
rewritten.  The files are the main file with the write buffer of its handle, the
journal and its staging file.  Every operation on them may fail with an `OSError`
or be the last one of its process (`Lib.Act`); what a broken write leaves in a file
and in the buffer is arbitrary.

The header of the journal is one line of JSON.  `json.dumps` and `json.loads` are
the parameter `HeaderCodec`, with the law that a header is read back, and the digest
is a parameter as well.  The checks of owner, links and file type are operations
that may fail.
-/
import SchemaSanitizer.Bytes
import SchemaSanitizer.Lib.Faults

namespace SchemaSanitizer

open Lib

/-! ### Records -/

/-- `_PHASE_PREPARED` and `_PHASE_COMMITTED`. -/
inductive JournalPhase
  | prepared
  | committed
  deriving DecidableEq, Repr

/-- The text of a phase. -/
def JournalPhase.text : JournalPhase → String
  | .prepared => "prepared"
  | .committed => "committed"

/-- `_JournalRecord`. -/
structure JournalRecord where
  phase : JournalPhase
  pid : Int
  start : List Char
  before : Bytes
  after : Bytes
  deriving DecidableEq, Repr

/-- The entries of the header, with the types that `_read_record` gives them. -/
structure JournalHeader where
  version : Int
  phase : String
  pid : Int
  start : List Char
  beforeLength : Int
  afterLength : Int
  beforeSha256 : String
  afterSha256 : String
  deriving DecidableEq, Repr

/-- Compact JSON of a header: it is read back, and it has no line break. -/
structure HeaderCodec where
  dumps : JournalHeader → Bytes
  loads : Bytes → Option JournalHeader
  loads_dumps : ∀ h, loads (dumps h) = some h
  newline_notMem : ∀ h, 10 ∉ dumps h

/-- What the functions of the journal share. -/
structure JournalConfig where
  codec : HeaderCodec
  digest : Bytes → String
  maxPayloadBytes : Nat

/-- `_JOURNAL_VERSION`. -/
def journalVersion : Int := 1

/-- `_MAX_HEADER_BYTES`. -/
def maxHeaderBytes : Nat := 4096

variable (cfg : JournalConfig)

/-- The header of a record; the start token is cut off after 128 characters. -/
def journalHeader (record : JournalRecord) : JournalHeader where
  version := journalVersion
  phase := record.phase.text
  pid := record.pid
  start := record.start.take 128
  beforeLength := record.before.length
  afterLength := record.after.length
  beforeSha256 := cfg.digest record.before
  afterSha256 := cfg.digest record.after

/-- `_encode_header`. -/
def encodeHeader (record : JournalRecord) : Except String Bytes :=
  if cfg.maxPayloadBytes < record.before.length ∨ cfg.maxPayloadBytes < record.after.length then
    .error "coordination journal payload exceeds its bounded size"
  else
    let encoded := cfg.codec.dumps (journalHeader cfg record)
    if maxHeaderBytes < encoded.length then
      .error "coordination journal header exceeds its bounded size"
    else .ok encoded

/-- `readline` with a limit: up to the first line break. -/
def readLine : (limit : Nat) → Bytes → Bytes
  | 0, _ => []
  | _ + 1, [] => []
  | limit + 1, c :: rest => if c = 10 then [c] else c :: readLine limit rest

/-- The phase of a header. -/
def phaseOfText (text : String) : Option JournalPhase :=
  if text = JournalPhase.prepared.text then some .prepared
  else if text = JournalPhase.committed.text then some .committed
  else none

/-- The checks of `_read_record` on the content of a journal that could be opened. -/
def parseRecord (content : Bytes) : Except String JournalRecord :=
  let headerLine := readLine (maxHeaderBytes + 2) content
  if headerLine.getLast? ≠ some 10 ∨ maxHeaderBytes + 1 < headerLine.length then
    .error "coordination journal is corrupt"
  else
    match cfg.codec.loads headerLine.dropLast with
    | none => .error "coordination journal is corrupt"
    | some header =>
      if header.version ≠ journalVersion then
        .error "coordination journal has an unsupported version"
      else
        match phaseOfText header.phase with
        | none => .error "coordination journal has an invalid phase"
        | some phase =>
          if header.pid ≤ 0 ∨ header.beforeLength < 0 ∨ header.afterLength < 0 ∨
              cfg.maxPayloadBytes < header.beforeLength ∨
              cfg.maxPayloadBytes < header.afterLength ∨
              (content.length : Int) ≠
                headerLine.length + header.beforeLength + header.afterLength then
            .error "coordination journal is corrupt"
          else
            let body := content.drop headerLine.length
            let before := body.take header.beforeLength.toNat
            let rest := body.drop header.beforeLength.toNat
            let after := rest.take header.afterLength.toNat
            if (before.length : Int) ≠ header.beforeLength ∨
                (after.length : Int) ≠ header.afterLength ∨
                rest.drop header.afterLength.toNat ≠ [] then
              .error "coordination journal is corrupt"
            else if header.beforeSha256 ≠ cfg.digest before ∨
                header.afterSha256 ≠ cfg.digest after then
              .error "coordination journal checksum mismatch"
            else .ok ⟨phase, header.pid, header.start, before, after⟩

/-! ### Files -/

/-- The main file with the write buffer of its handle, and the sidecar files. -/
structure CoordinationFiles where
  main : Bytes
  buffer : Bytes
  journal : Option Bytes
  temporary : Option Bytes
  deriving DecidableEq, Repr

/-- A command on the files; a broken operation leaves two byte strings behind. -/
abbrev FileAct := Act (Bytes × Bytes) CoordinationFiles String

/-- The main file and the buffer after a broken write. -/
def tearMain (torn : Bytes × Bytes) (files : CoordinationFiles) : CoordinationFiles :=
  { files with main := torn.1, buffer := torn.2 }

/-- The staging file after a broken write. -/
def tearTemporary (torn : Bytes × Bytes) (files : CoordinationFiles) : CoordinationFiles :=
  { files with temporary := some torn.1 }

/-- An operation that changes no file: opening, closing, `fsync`, `fstat`, reading. -/
def idle : FileAct Unit := Act.atomic id

/-- `_directory_fsync`: the directory is opened, synchronized and closed. -/
def directoryFsync : FileAct Unit := do
  idle
  idle
  idle

/-- The bytes of the staging file grow. -/
def writeTemporary (payload : Bytes) : FileAct Unit :=
  Act.op (fun files => { files with temporary := some (files.temporary.getD [] ++ payload) })
    tearTemporary

/-- The opener of the staging file: it is created if need be, checked and emptied. -/
def openTemporary : FileAct Unit :=
  Act.catching
    (do
      Act.atomic fun files => { files with temporary := some (files.temporary.getD []) }
      idle
      idle
      Act.op (fun files => { files with temporary := some [] }) tearTemporary
      idle)
    fun e => Act.raise ("coordination journal staging file cannot be opened safely: " ++ e)

/-- `os.replace` of the journal by the staging file. -/
def replaceJournal : FileAct Unit :=
  Act.atomic fun files => { files with journal := files.temporary, temporary := none }

/-- The staging file is removed; errors are ignored. -/
def unlinkTemporary : FileAct Unit :=
  Act.catching (Act.atomic fun files => { files with temporary := none }) fun _ => pure ()

/-- `_publish_record_mode`. -/
def publishRecordMode (record : JournalRecord) (durable requireDirectorySync : Bool) :
    FileAct Unit := do
  let header ← Act.ofExcept (encodeHeader cfg record)
  Act.cleaning
    (do
      openTemporary
      writeTemporary header
      writeTemporary [10]
      writeTemporary record.before
      writeTemporary record.after
      -- flush, fsync and close
      Act.op id tearTemporary
      if durable then idle else pure ()
      Act.op id tearTemporary
      replaceJournal
      if durable then
        Act.catching directoryFsync fun e => if requireDirectorySync then Act.raise e else pure ()
      else pure ())
    unlinkTemporary

/-- `_publish_record`. -/
def publishRecord (record : JournalRecord) (requireDirectorySync : Bool) : FileAct Unit :=
  publishRecordMode cfg record true requireDirectorySync

/-- `_read_record`: nothing if there is no journal. -/
def readRecord : FileAct (Option JournalRecord) := do
  match ← Act.look CoordinationFiles.journal with
  | none => pure none
  | some content =>
    Act.catching
      (do
        idle
        idle
        if maxHeaderBytes + 1 + 2 * cfg.maxPayloadBytes < content.length then
          Act.raise "coordination journal exceeds its bounded size"
        else pure ())
      fun _ => Act.raise "coordination journal cannot be opened safely"
    idle
    let record ← Act.ofExcept (parseRecord cfg content)
    pure (some record)

/-- `seek(0)` on the handle of the main file, which flushes its buffer. -/
def seekStart : FileAct Unit :=
  Act.op (fun files => { files with main := files.main ++ files.buffer, buffer := [] })
    fun torn files => if files.buffer = [] then files else tearMain torn files

/-- `_write_main`: seek, truncate, write, flush and `fsync`. -/
def writeMain (payload : Bytes) : FileAct Unit := do
  seekStart
  Act.op (fun files => { files with main := [] }) tearMain
  Act.op (fun files => { files with buffer := files.buffer ++ payload }) tearMain
  Act.op (fun files => { files with main := files.main ++ files.buffer, buffer := [] }) tearMain
  idle

/-- `_remove_journal`; errors are ignored. -/
def removeJournal : FileAct Unit :=
  Act.catching
    (do
      Act.atomic fun files => { files with journal := none }
      directoryFsync)
    fun _ => pure ()

/-! ### Transactions -/

/-- The image that recovery chooses: that after the update, unless the update is only
prepared and its owner is alive. -/
def recoveryTarget (processAlive : Int → List Char → Bool) (record : JournalRecord) : Bytes :=
  if record.phase = .committed ∨ processAlive record.pid record.start = false then record.after
  else record.before

/-- The main file is written if it is not at the target. -/
def restoreMain (current target : Bytes) : FileAct Unit :=
  if current ≠ target then writeMain target else pure ()

/-- `recover_locked_payload`. -/
def recoverLockedPayload (processAlive : Int → List Char → Bool) : FileAct Bytes := do
  seekStart
  idle
  let current ← Act.look fun files => files.main.take (cfg.maxPayloadBytes + 1)
  match ← readRecord cfg with
  | none => pure current
  | some record =>
    restoreMain current (recoveryTarget processAlive record)
    removeJournal
    pure (recoveryTarget processAlive record)

/-- `commit_locked_payload`, in the process `pid` with the start token `start`. -/
def commitLockedPayload (before after : Bytes) (pid : Int) (start : List Char) : FileAct Unit :=
  if before = after then pure ()
  else if cfg.maxPayloadBytes < after.length then
    Act.raise "coordination state exceeds its bounded file size"
  else do
    publishRecord cfg ⟨.prepared, pid, start, before, after⟩ true
    writeMain after
    Act.catching (publishRecord cfg ⟨.committed, pid, start, before, after⟩ false) fun e => do
      writeMain before
      removeJournal
      Act.raise e
    removeJournal

end SchemaSanitizer
