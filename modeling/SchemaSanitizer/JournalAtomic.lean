/-
SchemaSanitizer/JournalAtomic.lean

The journal makes an update atomic.

A document is settled at an image (`SettledAt`) if it holds the image and no update
is on its way; its journal may be left over from the update that wrote the image.
A commit starts from a settled document.  Whatever goes wrong in it, the document is
settled at one of the two images, or its journal holds both
(`commitLockedPayload_ensures`).  Recovery from there settles it, and if recovery is
interrupted itself the document can still be recovered, so that a history of processes
applies some of their updates and none by half (`History.recovers_applied`).
-/
import SchemaSanitizer.CoordinationJson

namespace SchemaSanitizer

open Lib Act List

/-! ### Records are read back -/

variable {header : Bytes} {cfg : JournalConfig} {record : JournalRecord}

theorem readLine_append {rest : Bytes} (hnewline : 10 ∉ header) : ∀ {limit : Nat},
    header.length < limit → readLine limit (header ++ 10 :: rest) = header ++ [10] := by
  induction header with
  | nil =>
    rintro (- | limit) hlen
    · exact absurd hlen (Nat.not_lt_zero _)
    · rfl
  | cons c header ih =>
    rintro (- | limit) hlen
    · exact absurd hlen (Nat.not_lt_zero _)
    · rw [mem_cons, not_or] at hnewline
      rw [cons_append, readLine, if_neg (Ne.symm hnewline.1), ih hnewline.2 (by simpa using hlen)]
      rfl

theorem phaseOfText_text (phase : JournalPhase) : phaseOfText phase.text = some phase := by
  cases phase <;> rfl

/-- A record as it is read back. -/
def JournalRecord.recorded (record : JournalRecord) : JournalRecord :=
  { record with start := record.start.take 128 }

/-- The content of a published journal. -/
def journalContent (header : Bytes) (record : JournalRecord) : Bytes :=
  header ++ 10 :: (record.before ++ record.after)

theorem encodeHeader_eq_ok (h : encodeHeader cfg record = .ok header) :
    record.before.length ≤ cfg.maxPayloadBytes ∧ record.after.length ≤ cfg.maxPayloadBytes ∧
      header = cfg.codec.dumps (journalHeader cfg record) ∧ header.length ≤ maxHeaderBytes := by
  rw [encodeHeader] at h
  split at h
  · cases h
  · rename_i hsize
    dsimp only at h
    split at h
    · cases h
    · cases h
      exact ⟨by omega, by omega, rfl, by omega⟩

/-- **A published journal is read back**, with its start token cut off. -/
theorem parseRecord_journalContent
    (h : encodeHeader cfg record = .ok header) (hpid : 0 < record.pid) :
    parseRecord cfg (journalContent header record) = .ok record.recorded := by
  obtain ⟨_, _, hheader, _⟩ := encodeHeader_eq_ok h
  have hnewline : 10 ∉ header := hheader ▸ cfg.codec.newline_notMem _
  have hline : readLine (maxHeaderBytes + 2) (journalContent header record) = header ++ [10] :=
    readLine_append hnewline (by omega)
  have hbody : (journalContent header record).drop (header ++ [10]).length
      = record.before ++ record.after := by
    have hsplit : journalContent header record =
      (header ++ [10]) ++ (record.before ++ record.after) :=
      by simp [journalContent]
    rw [hsplit, drop_left]
  have hloads : cfg.codec.loads header = some (journalHeader cfg record) := by
    rw [hheader, cfg.codec.loads_dumps]
  have hphase : phaseOfText (journalHeader cfg record).phase = some record.phase :=
    phaseOfText_text record.phase
  have hlength : (journalContent header record).length
      = (header ++ [10]).length + record.before.length + record.after.length := by
    simp only [journalContent, length_append, length_cons, length_nil]
    omega
  rw [parseRecord]
  simp only [hline]
  rw [if_neg (by simp; omega), dropLast_concat, hloads]
  simp only [hphase, hbody]
  rw [if_neg (by simp [journalHeader])]
  rw [if_neg (by simp only [journalHeader, hlength]; push_cast; omega)]
  simp only [journalHeader, Int.toNat_natCast, take_left, drop_left, take_length,
    drop_length, ne_eq, not_true_eq_false, or_self, if_false]
  rfl

/-- The journal holds a record that can be read. -/
def Holds (cfg : JournalConfig) (record : JournalRecord) (journal : Option Bytes) : Prop :=
  ∃ content, journal = some content ∧ parseRecord cfg content = .ok record ∧
    content.length ≤ maxHeaderBytes + 1 + 2 * cfg.maxPayloadBytes

theorem holds_journalContent (h : encodeHeader cfg record = .ok header) (hpid : 0 < record.pid) :
    Holds cfg record.recorded (some (journalContent header record)) := by
  obtain ⟨_, _, -, _⟩ := encodeHeader_eq_ok h
  refine ⟨_, rfl, parseRecord_journalContent h hpid, ?_⟩
  simp only [journalContent, length_append, length_cons]
  omega

/-! ### The commands -/

section Commands

variable {P R D : CoordinationFiles → Prop} {N : Option Bytes → Prop}

theorem ensures_idle (hR : ∀ f, P f → R f) (hD : ∀ f, P f → D f) :
    Ensures P idle (fun _ => P) R D :=
  ensures_atomic (fun _ h => h) hR hD

theorem ensures_directoryFsync (hR : ∀ f, P f → R f) (hD : ∀ f, P f → D f) :
    Ensures P directoryFsync (fun _ => P) R D :=
  ensures_bind (ensures_idle hR hD) fun _ =>
    ensures_bind (ensures_idle hR hD) fun _ => ensures_idle hR hD

/-- What the staging file does not matter for. -/
def IgnoresTemporary (P : CoordinationFiles → Prop) : Prop :=
  ∀ files t, P files → P { files with temporary := t }

theorem ensures_openTemporary (hP : IgnoresTemporary P) (hR : ∀ f, P f → R f)
    (hD : ∀ f, P f → D f) :
    Ensures P openTemporary (fun _ f => P f ∧ f.temporary = some []) R D := by
  apply ensures_catching (M := P)
  · refine ensures_bind (ensures_atomic (Q := fun _ => P) (fun f h => hP f _ h) (fun _ h => h) hD)
      fun _ => ?_
    refine ensures_bind (ensures_idle (fun _ h => h) hD) fun _ => ?_
    refine ensures_bind (ensures_idle (fun _ h => h) hD) fun _ => ?_
    refine ensures_bind (M := fun _ f => P f ∧ f.temporary = some []) ?_ fun _ => ?_
    · exact ensures_op (fun f h => ⟨hP f _ h, rfl⟩) (fun f _ h => hP f _ h)
        (fun f _ h => hD _ (hP f _ h))
    · exact ensures_idle (fun _ h => h.1) (fun f h => hD f h.1)
  · intro e
    exact ensures_raise hR

theorem ensures_writeTemporary (hP : IgnoresTemporary P) (hR : ∀ f, P f → R f)
    (hD : ∀ f, P f → D f) (content payload : Bytes) :
    Ensures (fun f => P f ∧ f.temporary = some content) (writeTemporary payload)
      (fun _ f => P f ∧ f.temporary = some (content ++ payload)) R D := by
  apply ensures_op
  · rintro f ⟨hf, hcontent⟩
    refine ⟨hP f _ hf, ?_⟩
    show some (f.temporary.getD [] ++ payload) = _
    rw [hcontent]
    rfl
  · rintro f torn ⟨hf, -⟩
    exact hR _ (hP f _ hf)
  · rintro f torn ⟨hf, -⟩
    exact hD _ (hP f _ hf)

theorem ensures_unlinkTemporary (hP : IgnoresTemporary P) (hD : ∀ f, P f → D f) :
    Ensures P unlinkTemporary (fun _ => P) R D := by
  apply ensures_catching (M := P)
  · exact ensures_atomic (fun f h => hP f _ h) (fun _ h => h) hD
  · intro e
    exact ensures_ret fun _ h => h

theorem ensures_removeJournal {N : CoordinationFiles → Prop}
    (hP : ∀ f, P f → N f) (hremoved : ∀ f, P f → N { f with journal := none })
    (hD : ∀ f, N f → D f) : Ensures P removeJournal (fun _ => N) R D := by
  apply ensures_catching (M := N)
  · refine ensures_bind (M := fun _ => N) ?_ fun _ => ?_
    · exact ensures_atomic hremoved hP (fun f h => hD f (hP f h))
    · exact ensures_directoryFsync (fun _ h => h) hD
  · intro e
    exact ensures_ret fun _ h => h

/-- Writing the payload leaves the journal alone, wherever it stops. -/
theorem ensures_writeMain (payload : Bytes) (hR : ∀ f, N f.journal → R f)
    (hD : ∀ f, N f.journal → D f) :
    Ensures (fun f => N f.journal) (writeMain payload)
      (fun _ f => f.main = payload ∧ f.buffer = [] ∧ N f.journal) R D := by
  have htear : ∀ (f : CoordinationFiles) (torn : Bytes × Bytes), N f.journal →
      N (tearMain torn f).journal := fun _ _ h => h
  refine ensures_bind (M := fun _ f => f.buffer = [] ∧ N f.journal) ?_ fun _ => ?_
  · refine ensures_op (fun f h => ⟨rfl, h⟩) (fun f torn h => hR _ ?_) (fun f torn h => hD _ ?_)
    · split
      · exact h
      · exact htear f torn h
    · split
      · exact h
      · exact htear f torn h
  refine ensures_bind (M := fun _ f => f.main = [] ∧ f.buffer = [] ∧ N f.journal) ?_ fun _ => ?_
  · exact ensures_op (fun f h => ⟨rfl, h⟩) (fun f torn h => hR _ (htear f torn h.2))
      (fun f torn h => hD _ (htear f torn h.2))
  refine ensures_bind (M := fun _ f => f.main = [] ∧ f.buffer = payload ∧ N f.journal) ?_
    fun _ => ?_
  · refine ensures_op ?_ (fun f torn h => hR _ (htear f torn h.2.2))
      (fun f torn h => hD _ (htear f torn h.2.2))
    rintro f ⟨hmain, hbuffer, hjournal⟩
    exact ⟨hmain, congrArg (· ++ payload) hbuffer, hjournal⟩
  refine ensures_bind (M := fun _ f => f.main = payload ∧ f.buffer = [] ∧ N f.journal) ?_
    fun _ => ?_
  · refine ensures_op ?_ (fun f torn h => hR _ (htear f torn h.2.2))
      (fun f torn h => hD _ (htear f torn h.2.2))
    rintro f ⟨hmain, hbuffer, hjournal⟩
    refine ⟨?_, rfl, hjournal⟩
    show f.main ++ f.buffer = payload
    rw [hmain, hbuffer]
    rfl
  · exact ensures_idle (fun f h => hR f h.2.2) (fun f h => hD f h.2.2)

/-- **Publishing replaces the journal as a whole or not at all.**  If it raises after
that, the caller had asked for the directory to be synchronized. -/
theorem ensures_publishRecord {K : CoordinationFiles → Prop}
    (hK : ∀ f j t, K f → K { f with journal := j, temporary := t }) (hpid : 0 < record.pid)
    (requireDirectorySync : Bool) :
    Ensures (fun f => K f ∧ N f.journal) (publishRecord cfg record requireDirectorySync)
      (fun _ f => K f ∧ Holds cfg record.recorded f.journal)
      (fun f => K f ∧
        (N f.journal ∨ requireDirectorySync = true ∧ Holds cfg record.recorded f.journal))
      (fun f => K f ∧ (N f.journal ∨ Holds cfg record.recorded f.journal)) := by
  have hold : IgnoresTemporary fun f => K f ∧ N f.journal :=
    fun f t h => ⟨hK f f.journal t h.1, h.2⟩
  let R : CoordinationFiles → Prop := fun f => K f ∧
    (N f.journal ∨ requireDirectorySync = true ∧ Holds cfg record.recorded f.journal)
  let D : CoordinationFiles → Prop := fun f => K f ∧
    (N f.journal ∨ Holds cfg record.recorded f.journal)
  have hR : ∀ f, K f ∧ N f.journal → R f := fun f h => ⟨h.1, .inl h.2⟩
  have hD : ∀ f, K f ∧ N f.journal → D f := fun f h => ⟨h.1, .inl h.2⟩
  have hRD : ∀ f, R f → D f := fun f h => ⟨h.1, h.2.imp_right And.right⟩
  have hnew : ∀ f, K f ∧ Holds cfg record.recorded f.journal → D f := fun f h => ⟨h.1, .inr h.2⟩
  refine ensures_ofExcept_bind (fun header hheader => ?_) fun _ _ => hR
  refine ensures_cleaning (M := fun _ f => K f ∧ Holds cfg record.recorded f.journal) (N := R) ?_
    (fun _ => ensures_unlinkTemporary (fun f t h => ⟨hK f f.journal t h.1, h.2⟩) hnew)
    (ensures_unlinkTemporary (fun f t h => ⟨hK f f.journal t h.1, h.2⟩) hRD)
  -- up to the replacement only the staging file changes
  refine ensures_bind (ensures_openTemporary hold hR hD) fun _ => ?_
  refine ensures_bind (ensures_writeTemporary hold hR hD [] header) fun _ => ?_
  refine ensures_bind (ensures_writeTemporary hold hR hD _ [10]) fun _ => ?_
  refine ensures_bind (ensures_writeTemporary hold hR hD _ record.before) fun _ => ?_
  refine ensures_bind (ensures_writeTemporary hold hR hD _ record.after) fun _ => ?_
  have hcontent : [] ++ header ++ [10] ++ record.before ++ record.after
      = journalContent header record := by
    simp [journalContent]
  rw [hcontent]
  let S : CoordinationFiles → Prop := fun f =>
    (K f ∧ N f.journal) ∧ f.temporary = some (journalContent header record)
  have hflush : Ensures S (op id tearTemporary : FileAct Unit) (fun _ => S) R D :=
    ensures_op (fun f h => h) (fun f torn h => hR _ (hold f _ h.1))
      (fun f torn h => hD _ (hold f _ h.1))
  refine ensures_bind hflush fun _ => ?_
  refine ensures_bind (ensures_idle (fun f h => hR f h.1) (fun f h => hD f h.1)) fun _ => ?_
  refine ensures_bind hflush fun _ => ?_
  refine ensures_bind (M := fun _ f => K f ∧ Holds cfg record.recorded f.journal) ?_ fun _ => ?_
  · refine ensures_atomic ?_ (fun f h => hR f h.1) (fun f h => hD f h.1)
    rintro f ⟨⟨hf, -⟩, hstaged⟩
    refine ⟨hK f _ _ hf, ?_⟩
    show Holds cfg record.recorded f.temporary
    rw [hstaged]
    exact holds_journalContent hheader hpid
  · apply ensures_catching (M := fun f => K f ∧ Holds cfg record.recorded f.journal)
    · exact ensures_directoryFsync (fun _ h => h) hnew
    · intro e
      cases requireDirectorySync with
      | false => exact ensures_ret fun _ h => h
      | true => exact ensures_raise fun f h => ⟨h.1, .inr ⟨rfl, h.2⟩⟩

end Commands

/-! ### Settled and unfinished documents -/

variable {image : Bytes} {f : CoordinationFiles} {pid : Int}

/-- A journal that is gone, or that was left behind by a finished update to `image`. -/
def SettledJournal (cfg : JournalConfig) (image : Bytes) (journal : Option Bytes) : Prop :=
  journal = none ∨
    ∃ record, Holds cfg record journal ∧ record.phase = .committed ∧ record.after = image

/-- The document is at `image`, and nothing is pending. -/
structure SettledAt (cfg : JournalConfig) (image : Bytes) (files : CoordinationFiles) : Prop where
  main : files.main = image
  buffer : files.buffer = []
  bounded : image.length ≤ cfg.maxPayloadBytes
  journal : SettledJournal cfg image files.journal

/-- The record of an update that is on its way. -/
def preparedRecord (before after : Bytes) (pid : Int) (start : List Char) : JournalRecord :=
  ⟨.prepared, pid, start.take 128, before, after⟩

/-- The main file is at `image`, with a journal of which `N` is known. -/
structure RestsAt (cfg : JournalConfig) (N : Option Bytes → Prop) (image : Bytes)
    (files : CoordinationFiles) : Prop where
  main : files.main = image
  buffer : files.buffer = []
  bounded : image.length ≤ cfg.maxPayloadBytes
  journal : N files.journal

theorem SettledAt.rests (h : SettledAt cfg image f) :
    RestsAt cfg (SettledJournal cfg image) image f :=
  { h with }

theorem RestsAt.settled
    (h : RestsAt cfg (SettledJournal cfg image) image f) : SettledAt cfg image f :=
  { h with }

/-- What a commit leaves behind, whatever journal it finds. -/
theorem commitLockedPayload_rests (cfg : JournalConfig) (N : Option Bytes → Prop)
    (before after : Bytes) (start : List Char) (hpid : 0 < pid) :
    Ensures (RestsAt cfg N before) (commitLockedPayload cfg before after pid start)
      (fun _ f => SettledAt cfg after f ∨ before = after ∧ RestsAt cfg N before f)
      (fun f => RestsAt cfg N before f ∨ SettledAt cfg before f ∨
        Holds cfg (preparedRecord before after pid start) f.journal)
      (fun f => RestsAt cfg N before f ∨ SettledAt cfg before f ∨ SettledAt cfg after f ∨
        Holds cfg (preparedRecord before after pid start) f.journal) := by
  rw [commitLockedPayload]
  by_cases hsame : before = after
  · rw [if_pos hsame]
    exact ensures_ret fun f h => .inr ⟨hsame, h⟩
  rw [if_neg hsame]
  by_cases hsize : cfg.maxPayloadBytes < after.length
  · rw [if_pos hsize]
    exact ensures_raise fun f h => .inl h
  rw [if_neg hsize]
  have hafter : after.length ≤ cfg.maxPayloadBytes := by omega
  refine ensures_of_pre (fun f h => h.bounded) fun hbefore => ?_
  let Prepared : Option Bytes → Prop := Holds cfg (preparedRecord before after pid start)
  let R : CoordinationFiles → Prop := fun f =>
    RestsAt cfg N before f ∨ SettledAt cfg before f ∨ Prepared f.journal
  let D : CoordinationFiles → Prop := fun f =>
    RestsAt cfg N before f ∨ SettledAt cfg before f ∨ SettledAt cfg after f ∨ Prepared f.journal
  have hR : ∀ f, Prepared f.journal → R f := fun f h => .inr (.inr h)
  have hD : ∀ f, Prepared f.journal → D f := fun f h => .inr (.inr (.inr h))
  -- the main file is at one image, and the rest does not matter
  let At : Bytes → CoordinationFiles → Prop := fun image f => f.main = image ∧ f.buffer = []
  have hAt : ∀ image f j t, At image f → At image { f with journal := j, temporary := t } :=
    fun _ _ _ _ h => h
  refine ensures_bind (M := fun _ f => Prepared f.journal) ?_ fun _ => ?_
  · refine (ensures_publishRecord (hAt before) (N := N) hpid true).mono
      (fun f h => ⟨⟨h.main, h.buffer⟩, h.journal⟩) (fun _ f h => h.2) ?_ ?_
    · rintro f ⟨hf, hjournal | ⟨-, hjournal⟩⟩
      · exact .inl ⟨hf.1, hf.2, hbefore, hjournal⟩
      · exact hR f hjournal
    · rintro f ⟨hf, hjournal | hjournal⟩
      · exact .inl ⟨hf.1, hf.2, hbefore, hjournal⟩
      · exact hD f hjournal
  refine ensures_bind (ensures_writeMain after hR hD) fun _ => ?_
  have hcommitted : ∀ f, At after f ∧
      Holds cfg ⟨.committed, pid, start.take 128, before, after⟩ f.journal →
        SettledAt cfg after f :=
    fun f h => ⟨h.1.1, h.1.2, hafter, .inr ⟨_, h.2, rfl, rfl⟩⟩
  refine ensures_bind (M := fun _ => SettledAt cfg after) ?_ fun _ => ?_
  · apply ensures_catching (M := fun f => Prepared f.journal)
    · refine (ensures_publishRecord (hAt after) (N := Prepared) hpid false).mono
        (fun f h => ⟨⟨h.1, h.2.1⟩, h.2.2⟩) (fun _ => hcommitted) ?_ ?_
      · rintro f ⟨-, hjournal | ⟨hfalse, -⟩⟩
        · exact hjournal
        · exact absurd hfalse Bool.false_ne_true
      · rintro f ⟨hf, hjournal | hjournal⟩
        · exact hD f hjournal
        · exact .inr (.inr (.inl (hcommitted f ⟨hf, hjournal⟩)))
    · -- the second record could not be published: back to the image before
      intro e
      refine ensures_bind (ensures_writeMain before hR hD) fun _ => ?_
      refine ensures_bind (M := fun _ => R) ?_ fun _ => ensures_raise fun _ h => h
      refine ensures_removeJournal (N := R) (fun f h => hR f h.2.2) ?_ ?_
      · rintro f ⟨hmain, hbuffer, -⟩
        exact .inr (.inl ⟨hmain, hbuffer, hbefore, .inl rfl⟩)
      · exact fun f h => h.imp_right (.imp_right .inr)
  · refine (ensures_removeJournal (N := SettledAt cfg after) (fun _ h => h) ?_
      fun f h => .inr (.inr (.inl h))).mono (fun _ h => h) (fun _ _ h => .inl h) (fun _ h => h)
      (fun _ h => h)
    intro f h
    exact { h with journal := .inl rfl }

/-- **What a commit leaves behind**, whatever goes wrong in it. -/
theorem commitLockedPayload_ensures (cfg : JournalConfig) (before after : Bytes)
    (start : List Char) (hpid : 0 < pid) :
    Ensures (SettledAt cfg before) (commitLockedPayload cfg before after pid start)
      (fun _ => SettledAt cfg after)
      (fun f => SettledAt cfg before f ∨
        Holds cfg (preparedRecord before after pid start) f.journal)
      (fun f => SettledAt cfg before f ∨ SettledAt cfg after f ∨
        Holds cfg (preparedRecord before after pid start) f.journal) := by
  refine (commitLockedPayload_rests cfg (SettledJournal cfg before) before after start hpid).mono
    (fun f h => h.rests) ?_ ?_ ?_
  · rintro - f (h | ⟨rfl, h⟩)
    · exact h
    · exact h.settled
  · rintro f (h | h)
    · exact .inl h.settled
    · exact h
  · rintro f (h | h)
    · exact .inl h.settled
    · exact h

/-! ### Recovery -/

section Recovery

variable (processAlive : Int → List Char → Bool)

variable {P : CoordinationFiles → Prop} {journal : Option Bytes}

/-- Reading the journal changes no file and returns what the journal holds. -/
theorem ensures_readRecord {R D : CoordinationFiles → Prop} (hR : ∀ f, P f → R f)
    (hD : ∀ f, P f → D f) :
    Ensures P (readRecord cfg) (fun out f => P f ∧
      match out with
      | none => f.journal = none
      | some record => Holds cfg record f.journal) R D := by
  refine ensures_bind (M := fun journal f => P f ∧ f.journal = journal) ?_ fun journal => ?_
  · exact ensures_look fun f h => ⟨h, rfl⟩
  cases journal with
  | none => exact ensures_ret fun f h => h
  | some content =>
    have hRM : ∀ f, P f ∧ f.journal = some content → R f := fun f h => hR f h.1
    have hDM : ∀ f, P f ∧ f.journal = some content → D f := fun f h => hD f h.1
    refine ensures_bind (M := fun _ f => (P f ∧ f.journal = some content) ∧
      content.length ≤ maxHeaderBytes + 1 + 2 * cfg.maxPayloadBytes) ?_ fun _ => ?_
    · apply ensures_catching (M := R)
      · refine ensures_bind (ensures_idle hRM hDM) fun _ => ?_
        refine ensures_bind (ensures_idle hRM hDM) fun _ => ?_
        split
        · exact ensures_raise hRM
        · rename_i hsize
          exact ensures_ret fun f h => ⟨h, by omega⟩
      · intro e
        exact ensures_raise fun _ h => h
    refine ensures_bind (ensures_idle (fun f h => hRM f h.1) (fun f h => hDM f h.1)) fun _ => ?_
    exact ensures_ofExcept_bind
      (fun record hok => ensures_ret fun f h => ⟨h.1.1, content, h.1.2, hok, h.2⟩)
      fun e _ f h => hRM f h.1

theorem Holds.ne_none (h : Holds cfg record journal) : journal ≠ none := by
  obtain ⟨content, rfl, -⟩ := h
  exact Option.some_ne_none content

theorem Holds.unique {record' : JournalRecord} (h : Holds cfg record journal)
    (h' : Holds cfg record' journal) : record = record' := by
  obtain ⟨content, rfl, hparse, -⟩ := h
  obtain ⟨content', hcontent, hparse', -⟩ := h'
  cases hcontent
  rw [hparse] at hparse'
  cases hparse'
  rfl

theorem take_eq_image {main : Bytes} (himage : image.length ≤ cfg.maxPayloadBytes) :
    main.take (cfg.maxPayloadBytes + 1) = image ↔ main = image := by
  constructor
  · intro h
    have hlen := congrArg length h
    rw [length_take] at hlen
    rwa [take_of_length_le (by omega)] at h
  · rintro rfl
    exact take_of_length_le (by omega)

/-- **Recovery of a settled document** gives its image and leaves it there. -/
theorem recoverLockedPayload_settled (image : Bytes) :
    Ensures (SettledAt cfg image) (recoverLockedPayload cfg processAlive)
      (fun out f => out = image ∧ SettledAt cfg image f) (SettledAt cfg image)
      (SettledAt cfg image) := by
  have hkeep : ∀ f : CoordinationFiles, SettledAt cfg image f → SettledAt cfg image f :=
    fun _ h => h
  refine ensures_bind (M := fun _ => SettledAt cfg image) ?_ fun _ => ?_
  · -- there is nothing in the buffer to flush
    refine ensures_op (fun f h => ?_) (fun f torn h => ?_) (fun f torn h => ?_)
    · refine ⟨?_, rfl, h.bounded, h.journal⟩
      show f.main ++ f.buffer = image
      rw [h.buffer, append_nil, h.main]
    · rwa [if_pos h.buffer]
    · rwa [if_pos h.buffer]
  refine ensures_bind (ensures_idle hkeep hkeep) fun _ => ?_
  refine ensures_bind (M := fun current f => current = image ∧ SettledAt cfg image f) ?_
    fun current => ?_
  · exact ensures_look fun f h => ⟨(take_eq_image h.bounded).mpr h.main, h⟩
  refine ensures_bind (ensures_readRecord (fun f h => h.2) (fun f h => h.2)) fun out => ?_
  cases out with
  | none => exact ensures_ret fun f h => h.1
  | some record =>
    refine ensures_of_pre (p := current = image ∧ recoveryTarget processAlive record = image)
      ?_ fun hp => ?_
    · rintro f ⟨⟨hcurrent, hf⟩, hrecord⟩
      refine ⟨hcurrent, ?_⟩
      rcases hf.journal with hnone | ⟨record', hrecord', hphase, hafter⟩
      · exact absurd hnone hrecord.ne_none
      · obtain rfl := hrecord.unique hrecord'
        rw [recoveryTarget, if_pos (.inl hphase), hafter]
    · obtain ⟨rfl, htarget⟩ := hp
      dsimp only
      rw [htarget, restoreMain, if_neg (not_not.mpr rfl)]
      refine ensures_bind (M := fun _ => SettledAt cfg current) (ensures_ret fun f h => h.1.2)
        fun _ => ?_
      refine ensures_bind (ensures_removeJournal (N := SettledAt cfg current) hkeep ?_ hkeep)
        fun _ => ensures_ret fun f h => ⟨rfl, h⟩
      exact fun f h => { h with journal := .inl rfl }

/-- **Recovery from a journal**: if it is interrupted, the record is still there or the
document is settled at the image that the record decides. -/
theorem recoverLockedPayload_holds
    (hbounded : (recoveryTarget processAlive record).length ≤ cfg.maxPayloadBytes) :
    Ensures (fun f => Holds cfg record f.journal) (recoverLockedPayload cfg processAlive)
      (fun out f => out = recoveryTarget processAlive record ∧ f.main = out ∧ f.buffer = [] ∧
        (f.journal = none ∨ Holds cfg record f.journal))
      (fun f => Holds cfg record f.journal ∨ SettledAt cfg (recoveryTarget processAlive record) f)
      (fun f => Holds cfg record f.journal ∨
        SettledAt cfg (recoveryTarget processAlive record) f) := by
  set target := recoveryTarget processAlive record with htarget
  let J : CoordinationFiles → Prop := fun f => Holds cfg record f.journal ∨ SettledAt cfg target f
  have hJ : ∀ f, Holds cfg record f.journal → J f := fun f h => .inl h
  refine ensures_bind (M := fun _ f => f.buffer = [] ∧ Holds cfg record f.journal) ?_ fun _ => ?_
  · refine ensures_op (fun f h => ⟨rfl, h⟩) (fun f torn h => hJ _ ?_) (fun f torn h => hJ _ ?_)
    · split <;> exact h
    · split <;> exact h
  refine ensures_bind (ensures_idle (fun f h => hJ f h.2) (fun f h => hJ f h.2)) fun _ => ?_
  refine ensures_bind (M := fun current f => f.main.take (cfg.maxPayloadBytes + 1) = current ∧
    f.buffer = [] ∧ Holds cfg record f.journal) ?_ fun current => ?_
  · exact ensures_look fun f h => ⟨rfl, h⟩
  refine ensures_bind (ensures_readRecord (fun f h => hJ f h.2.2) (fun f h => hJ f h.2.2))
    fun out => ?_
  refine ensures_of_pre (p := out = some record) ?_ ?_
  · rintro f ⟨⟨-, -, hrecord⟩, hout⟩
    cases out with
    | none => exact absurd hout hrecord.ne_none
    | some record' => rw [hrecord.unique hout]
  · rintro rfl
    dsimp only
    rw [← htarget]
    refine ensures_bind (M := fun _ f => f.main = target ∧ f.buffer = [] ∧
      Holds cfg record f.journal) ?_ fun _ => ?_
    · rw [restoreMain]
      split
      · exact (ensures_writeMain target hJ hJ).mono (fun f h => h.2) (fun _ _ h => h)
          (fun _ h => h) (fun _ h => h)
      · rename_i hsame
        rw [not_not] at hsame
        refine ensures_ret ?_
        rintro f ⟨⟨hcurrent, hbuffer, hrecord⟩, -⟩
        exact ⟨(take_eq_image hbounded).mp (hcurrent.trans hsame), hbuffer, hrecord⟩
    · refine ensures_bind (ensures_removeJournal (N := fun f => f.main = target ∧ f.buffer = [] ∧
        (f.journal = none ∨ Holds cfg record f.journal)) ?_ ?_ ?_)
        fun _ => ensures_ret fun f h => ⟨rfl, h⟩
      · rintro f ⟨hmain, hbuffer, hrecord⟩
        exact ⟨hmain, hbuffer, .inr hrecord⟩
      · rintro f ⟨hmain, hbuffer, -⟩
        exact ⟨hmain, hbuffer, .inl rfl⟩
      · rintro f ⟨hmain, hbuffer, hnone | hrecord⟩
        · exact .inr ⟨hmain, hbuffer, hbounded, .inl hnone⟩
        · exact .inl hrecord

/-! ### Recovery without faults -/

section Quiet

variable {N : Option Bytes → Prop}

theorem returns_idle : Returns P idle (fun _ => P) :=
  returns_op fun _ h => h

theorem returns_writeMain (payload : Bytes) :
    Returns (fun f => N f.journal) (writeMain payload) (fun _ f => N f.journal) := by
  refine returns_bind (M := fun _ f => N f.journal) (returns_op fun _ h => h) fun _ => ?_
  refine returns_bind (M := fun _ f => N f.journal) (returns_op fun _ h => h) fun _ => ?_
  refine returns_bind (M := fun _ f => N f.journal) (returns_op fun _ h => h) fun _ => ?_
  exact returns_bind (M := fun _ f => N f.journal) (returns_op fun _ h => h) fun _ => returns_idle

theorem returns_removeJournal : Returns P removeJournal (fun _ f => f.journal = none) := by
  apply returns_catching
  refine returns_bind (M := fun _ f => f.journal = none) (returns_op fun _ _ => rfl) fun _ => ?_
  exact returns_bind returns_idle fun _ => returns_bind returns_idle fun _ => returns_idle

/-- Without faults a held record is read back. -/
theorem returns_readRecord :
    Returns (fun f => Holds cfg record f.journal) (readRecord cfg)
      (fun out f => out = some record ∧ Holds cfg record f.journal) := by
  rintro f ⟨content, hcontent, hparse, hsize⟩
  refine ⟨some record, f, ?_, rfl, content, hcontent, hparse, hsize⟩
  have hlook : (readRecord cfg : FileAct _) f [] = (do
      catching
        (do
          idle
          idle
          if maxHeaderBytes + 1 + 2 * cfg.maxPayloadBytes < content.length then
            raise "coordination journal exceeds its bounded size"
          else pure ())
        fun _ => raise "coordination journal cannot be opened safely"
      idle
      let record ← ofExcept (parseRecord cfg content)
      pure (some record) : FileAct (Option JournalRecord)) f [] := by
    obtain ⟨main, buffer, journal⟩ := f
    obtain rfl : journal = some content := hcontent
    rfl
  rw [hlook, if_neg (by omega), hparse]
  rfl

/-- **Without faults recovery returns**, and the journal is gone. -/
theorem recoverLockedPayload_returns (f : CoordinationFiles)
    (hf : f.journal = none ∨ ∃ record, Holds cfg record f.journal) :
    ∃ out g, recoverLockedPayload cfg processAlive f [] = ⟨.returned out, g, []⟩ ∧
      g.journal = none := by
  rcases hf with hnone | ⟨record, hrecord⟩
  · obtain ⟨_, _, journal, _⟩ := f
    cases hnone
    exact ⟨_, _, rfl, rfl⟩
  · have hreturns : Returns (fun f => Holds cfg record f.journal)
        (recoverLockedPayload cfg processAlive) (fun _ f => f.journal = none) := by
      refine returns_bind (M := fun _ f => Holds cfg record f.journal) (returns_op fun _ h => h)
        fun _ => ?_
      refine returns_bind returns_idle fun _ => ?_
      refine returns_bind (M := fun _ f => Holds cfg record f.journal) (returns_look fun _ h => h)
        fun current => ?_
      refine returns_bind returns_readRecord fun out => ?_
      rintro f ⟨rfl, hf⟩
      refine returns_bind (P := fun f => Holds cfg record f.journal)
        (M := fun _ f => Holds cfg record f.journal) ?_ (fun _ => ?_) f hf
      · rw [restoreMain]
        split
        · exact returns_writeMain _
        · exact returns_ret fun _ h => h
      · exact returns_bind returns_removeJournal fun _ => returns_ret fun _ h => h
    exact hreturns f hrecord

end Quiet

end Recovery

/-! ### Atomicity -/

variable {g : CoordinationFiles} {before after : Bytes}

/-- What the next process finds when it opens the document: the files, with an empty
buffer.  Bytes that were still in the buffer of the old handle are lost, or they
were written when it was closed. -/
structure Reopened (f g : CoordinationFiles) : Prop where
  journal : g.journal = f.journal
  buffer : g.buffer = []
  main : f.buffer = [] → g.main = f.main

/-- The bytes in the buffer of the old handle may be lost. -/
theorem reopened_lost (f : CoordinationFiles) : Reopened f { f with buffer := [] } :=
  ⟨rfl, rfl, fun _ => rfl⟩

theorem SettledAt.reopened (h : SettledAt cfg image f)
    (hg : Reopened f g) : SettledAt cfg image g :=
  ⟨(hg.main h.buffer).trans h.main, hg.buffer, h.bounded, hg.journal.symm ▸ h.journal⟩

theorem SettledAt.recover (h : SettledAt cfg image f) (processAlive : Int → List Char → Bool) :
    ∃ g, recoverLockedPayload cfg processAlive f [] = ⟨.returned image, g, []⟩ ∧
      SettledAt cfg image g := by
  have hjournal : f.journal = none ∨ ∃ record, Holds cfg record f.journal := by
    rcases h.journal with hnone | ⟨record, hrecord, -⟩
    · exact .inl hnone
    · exact .inr ⟨record, hrecord⟩
  obtain ⟨out, g, hrun, -⟩ := recoverLockedPayload_returns processAlive f hjournal
  have hend := recoverLockedPayload_settled processAlive image f [] h
  rw [hrun] at hend
  obtain ⟨rfl, hg⟩ := hend
  exact ⟨g, hrun, hg⟩

theorem Holds.recover (h : Holds cfg record f.journal) (processAlive : Int → List Char → Bool)
    (hbounded : (recoveryTarget processAlive record).length ≤ cfg.maxPayloadBytes) :
    ∃ g, recoverLockedPayload cfg processAlive f []
        = ⟨.returned (recoveryTarget processAlive record), g, []⟩ ∧
      SettledAt cfg (recoveryTarget processAlive record) g := by
  obtain ⟨out, g, hrun, hnone⟩ :=
    recoverLockedPayload_returns processAlive f (.inr ⟨record, h⟩)
  have hend := recoverLockedPayload_holds processAlive hbounded f [] h
  rw [hrun] at hend
  obtain ⟨rfl, hmain, hbuffer, -⟩ := hend
  exact ⟨g, hrun, hmain, hbuffer, hbounded, .inl hnone⟩

theorem recoveryTarget_prepared (processAlive : Int → List Char → Bool) (before after : Bytes)
    (pid : Int) (start : List Char) :
    recoveryTarget processAlive (preparedRecord before after pid start)
      = if processAlive pid (start.take 128) = true then before else after := by
  by_cases halive : processAlive pid (start.take 128) = true
  · simp [recoveryTarget, preparedRecord, halive]
  · simp [recoveryTarget, preparedRecord, halive]

theorem Holds.recover_prepared {start : List Char}
    (h : Holds cfg (preparedRecord before after pid start) f.journal)
    (processAlive : Int → List Char → Bool) (hbefore : before.length ≤ cfg.maxPayloadBytes)
    (hafter : after.length ≤ cfg.maxPayloadBytes) :
    ∃ image g, recoverLockedPayload cfg processAlive f [] = ⟨.returned image, g, []⟩ ∧
      SettledAt cfg image g ∧ (image = before ∨ image = after) ∧
      (processAlive pid (start.take 128) = true → image = before) := by
  have htarget := recoveryTarget_prepared processAlive before after pid start
  obtain ⟨g, hrun, hg⟩ := h.recover processAlive (by rw [htarget]; split <;> assumption)
  refine ⟨_, g, hrun, hg, ?_, fun halive => by rw [htarget, if_pos halive]⟩
  rw [htarget]
  split
  · exact .inl rfl
  · exact .inr rfl

/-- Recovery ends at the image before or at the image after. -/
theorem recover_between {before after : Bytes} {start : List Char}
    (hbefore : before.length ≤ cfg.maxPayloadBytes)
    (hafter : after.length ≤ cfg.maxPayloadBytes)
    (hf : SettledAt cfg before f ∨ SettledAt cfg after f ∨
      Holds cfg (preparedRecord before after pid start) f.journal)
    (hg : Reopened f g) (processAlive : Int → List Char → Bool) :
    ∃ image g', recoverLockedPayload cfg processAlive g [] = ⟨.returned image, g', []⟩ ∧
      SettledAt cfg image g' ∧ (image = before ∨ image = after) := by
  rcases hf with hf | hf | hf
  · obtain ⟨g', hrun, hg'⟩ := (hf.reopened hg).recover processAlive
    exact ⟨before, g', hrun, hg', .inl rfl⟩
  · obtain ⟨g', hrun, hg'⟩ := (hf.reopened hg).recover processAlive
    exact ⟨after, g', hrun, hg', .inr rfl⟩
  · rw [← hg.journal] at hf
    obtain ⟨image, g', hrun, hg', himage, -⟩ := hf.recover_prepared processAlive hbefore hafter
    exact ⟨image, g', hrun, hg', himage⟩

/-- **The journal makes an update atomic.**  A commit starts from a document settled at
`before` and runs under any schedule of failures and crashes.  The next recovery
returns one of the two images and leaves the document there: the image after the
update if the commit returned, and the image before it if the commit raised and the
owner is alive. -/
theorem commit_then_recover (cfg : JournalConfig) (before after : Bytes) (pid : Int)
    (start : List Char) (hpid : 0 < pid) (hafter : after.length ≤ cfg.maxPayloadBytes)
    (f : CoordinationFiles) (hf : SettledAt cfg before f)
    (faults : Schedule (Bytes × Bytes) String) (processAlive : Int → List Char → Bool)
    (g : CoordinationFiles)
    (hg : Reopened (commitLockedPayload cfg before after pid start f faults).state g) :
    ∃ image g', recoverLockedPayload cfg processAlive g [] = ⟨.returned image, g', []⟩ ∧
      SettledAt cfg image g' ∧ (image = before ∨ image = after) ∧
      ((commitLockedPayload cfg before after pid start f faults).outcome = .returned () →
        image = after) ∧
      (∀ e, (commitLockedPayload cfg before after pid start f faults).outcome = .raised e →
        processAlive pid (start.take 128) = true → image = before) := by
  have hbefore := hf.bounded
  have hend := commitLockedPayload_ensures cfg before after start hpid f faults hf
  have hprepared : Holds cfg (preparedRecord before after pid start) g.journal → _ :=
    fun h => h.recover_prepared processAlive hbefore hafter
  have hsettled : ∀ {image f'}, SettledAt cfg image f' → Reopened f' g → _ :=
    fun h hg => (h.reopened hg).recover processAlive
  generalize commitLockedPayload cfg before after pid start f faults = ended at hend hg ⊢
  obtain ⟨outcome, f', rest⟩ := ended
  rcases outcome with ⟨⟩ | e | -
  · obtain ⟨g', hrun, hg'⟩ := hsettled hend hg
    exact ⟨after, g', hrun, hg', .inr rfl, fun _ => rfl, (fun _ h => nomatch h)⟩
  · rcases hend with hend | hend
    · obtain ⟨g', hrun, hg'⟩ := hsettled hend hg
      exact ⟨before, g', hrun, hg', .inl rfl, (fun h => nomatch h), fun _ _ _ => rfl⟩
    · obtain ⟨image, g', hrun, hg', himage, halive⟩ := hprepared (hg.journal.symm ▸ hend)
      exact ⟨image, g', hrun, hg', himage, (fun h => nomatch h), fun _ _ => halive⟩
  · obtain ⟨image, g', hrun, hg', himage⟩ := recover_between hbefore hafter hend hg processAlive
    exact ⟨image, g', hrun, hg', himage, (fun h => nomatch h), (fun _ h => nomatch h)⟩

/-- SHA-256 of three documents of one letter. -/
def letterDigest (payload : Bytes) : String :=
  if payload = bytes "a" then "ca978112ca1bbdcafac231b39a23dc4da786eff8147c4e72b9807785afee48bb"
  else if payload = bytes "b" then
    "3e23e8160039594a33894f6564e1b1348bbd7a0088d42c4acb73eeaed59c009d"
  else "2e7d2c03a9507ae265ecf5b5356885a53393a2029d241394997265a1a25aefc6"

/-- The journal of these documents. -/
def letterJournal : JournalConfig := ⟨headerCodec, letterDigest, 8⟩

/-- A commit that dies when it has emptied the main file. -/
def interruptedCommit : Ended (Bytes × Bytes) CoordinationFiles String Unit :=
  commitLockedPayload letterJournal (bytes "a") (bytes "b") 1 [] ⟨bytes "a", [], none, none⟩
    (replicate 19 none ++ [some (.die ([], []))])

/-- The main file is empty, and recovery finds the image after the update. -/
theorem commit_then_recover_interrupted :
    interruptedCommit.outcome = .died ∧ interruptedCommit.state.main = [] ∧ ∃ image g',
      recoverLockedPayload letterJournal (fun _ _ => false)
        { interruptedCommit.state with buffer := [] } [] = ⟨.returned image, g', []⟩ ∧
      SettledAt letterJournal image g' ∧ (image = bytes "a" ∨ image = bytes "b") ∧
      image = bytes "b" := by
  have hends : interruptedCommit.outcome = .died ∧ interruptedCommit.state.main = [] ∧
      (recoverLockedPayload letterJournal (fun _ _ => false)
        { interruptedCommit.state with buffer := [] } []).outcome = .returned (bytes "b") := by
    decide +kernel
  obtain ⟨hdied, hmain, hout⟩ := hends
  refine ⟨hdied, hmain, ?_⟩
  obtain ⟨image, g', hrun, hg', himage, -⟩ :=
    commit_then_recover letterJournal (bytes "a") (bytes "b") 1 [] (by decide) (by decide)
      ⟨bytes "a", [], none, none⟩ ⟨rfl, rfl, by decide, .inl rfl⟩
      (replicate 19 none ++ [some (.die ([], []))]) (fun _ _ => false) _ (reopened_lost _)
  rw [interruptedCommit] at hout ⊢
  rw [hrun] at hout
  cases hout
  exact ⟨_, g', hrun, hg', himage, rfl⟩

/-! ### Histories -/

variable {images images' : Set Bytes}

/-- One process that recovers the document and commits an update of it.  Both may fail or die
at any operation. -/
structure Session where
  update : Bytes → Bytes
  pid : Int
  pid_pos : 0 < pid
  start : List Char
  processAlive : Int → List Char → Bool
  faults : Schedule (Bytes × Bytes) String

/-- What the process does. -/
def Session.act (cfg : JournalConfig) (s : Session) : FileAct Unit := do
  let raw ← recoverLockedPayload cfg s.processAlive
  commitLockedPayload cfg raw (s.update raw) s.pid s.start

/-- Sessions one after the other, each with a new handle. -/
inductive History (cfg : JournalConfig) : CoordinationFiles → List Session →
    CoordinationFiles → Prop
  | nil (f : CoordinationFiles) : History cfg f [] f
  | cons {f g h : CoordinationFiles} {s : Session} {sessions : List Session}
      (hg : Reopened (s.act cfg f s.faults).state g) (hh : History cfg g sessions h) :
      History cfg f (s :: sessions) h

/-- The journal is gone, or recovery chooses one of the images, whoever is alive. -/
def JournalWithin (cfg : JournalConfig) (images : Set Bytes) (journal : Option Bytes) : Prop :=
  journal = none ∨ ∃ record, Holds cfg record journal ∧ ∀ processAlive,
    (recoveryTarget processAlive record).length ≤ cfg.maxPayloadBytes ∧
      recoveryTarget processAlive record ∈ images

/-- Whatever the files are recovered to is one of the images. -/
structure Recoverable (cfg : JournalConfig) (images : Set Bytes)
    (f : CoordinationFiles) : Prop where
  journal : JournalWithin cfg images f.journal
  main : f.journal = none →
    f.buffer = [] ∧ f.main.length ≤ cfg.maxPayloadBytes ∧ f.main ∈ images

theorem JournalWithin.mono {journal : Option Bytes} (h : JournalWithin cfg images journal)
    (himages : images ⊆ images') : JournalWithin cfg images' journal :=
  h.imp_right fun ⟨record, hholds, htarget⟩ =>
    ⟨record, hholds, fun alive => ⟨(htarget alive).1, himages (htarget alive).2⟩⟩

theorem Recoverable.mono (h : Recoverable cfg images f) (himages : images ⊆ images') :
    Recoverable cfg images' f :=
  ⟨h.journal.mono himages, fun hnone => ⟨(h.main hnone).1, (h.main hnone).2.1,
    himages (h.main hnone).2.2⟩⟩

theorem RestsAt.recoverable {raw : Bytes} (h : RestsAt cfg (JournalWithin cfg images) raw f)
    (hraw : raw ∈ images) : Recoverable cfg images f where
  journal := h.journal
  main := by
    intro _
    rw [h.main]
    exact ⟨h.buffer, h.bounded, hraw⟩

theorem SettledAt.within (h : SettledAt cfg image f) (himage : image ∈ images) :
    RestsAt cfg (JournalWithin cfg images) image f := by
  refine ⟨h.main, h.buffer, h.bounded, h.journal.imp_right ?_⟩
  rintro ⟨record, hholds, hphase, rfl⟩
  refine ⟨record, hholds, fun alive => ?_⟩
  rw [recoveryTarget, if_pos (.inl hphase)]
  exact ⟨h.bounded, himage⟩

theorem Recoverable.reopened (h : Recoverable cfg images f) (hg : Reopened f g) :
    Recoverable cfg images g := by
  refine ⟨hg.journal ▸ h.journal, fun hnone => ?_⟩
  rw [hg.journal] at hnone
  obtain ⟨hbuffer, hmain⟩ := h.main hnone
  rw [hg.main hbuffer]
  exact ⟨hg.buffer, hmain⟩

/-- Recovery may itself be cut off: what it leaves can be recovered. -/
theorem recoverLockedPayload_recoverable (processAlive : Int → List Char → Bool) :
    Ensures (Recoverable cfg images) (recoverLockedPayload cfg processAlive)
      (fun raw f => raw ∈ images ∧ RestsAt cfg (JournalWithin cfg images) raw f)
      (Recoverable cfg images) (Recoverable cfg images) := by
  intro f faults hf
  rcases hf.journal with hnone | ⟨record, hholds, htarget⟩
  · -- there is no journal: the main file is the document
    obtain ⟨hbuffer, hbounded, hmain⟩ := hf.main hnone
    refine (recoverLockedPayload_settled processAlive f.main).mono (fun _ h => h) ?_
      (fun f' h => (h.within hmain).recoverable hmain)
      (fun f' h => (h.within hmain).recoverable hmain) f faults ⟨rfl, hbuffer, hbounded, .inl hnone⟩
    rintro raw f' ⟨rfl, h⟩
    exact ⟨hmain, h.within hmain⟩
  · obtain ⟨hbounded, himage⟩ := htarget processAlive
    have hinterrupted : ∀ f', Holds cfg record f'.journal ∨
        SettledAt cfg (recoveryTarget processAlive record) f' → Recoverable cfg images f' := by
      rintro f' (h | h)
      · exact ⟨.inr ⟨record, h, htarget⟩, fun hnone => absurd hnone h.ne_none⟩
      · exact (h.within himage).recoverable himage
    refine (recoverLockedPayload_holds processAlive hbounded).mono (fun _ h => h) ?_
      hinterrupted hinterrupted f faults hholds
    rintro raw f' ⟨rfl, hmain, hbuffer, hjournal⟩
    exact ⟨himage, hmain, hbuffer, hbounded, hjournal.imp_right fun h => ⟨record, h, htarget⟩⟩

/-- **A session applies its update or does not**, wherever it fails or dies. -/
theorem Session.recoverable (s : Session) (hgrow : images ⊆ images')
    (hupdate : ∀ raw ∈ images, s.update raw ∈ images') (hf : Recoverable cfg images f) :
    Recoverable cfg images' (s.act cfg f s.faults).state := by
  have hact : Ensures (Recoverable cfg images) (s.act cfg) (fun _ => Recoverable cfg images')
      (Recoverable cfg images') (Recoverable cfg images') := by
    refine ensures_bind ((recoverLockedPayload_recoverable s.processAlive).mono (fun _ h => h)
      (fun _ _ h => h) (fun _ h => h.mono hgrow) (fun _ h => h.mono hgrow)) fun raw => ?_
    refine ensures_of_pre (fun f h => And.intro h.1 h.2.bounded) fun ⟨hraw, hbefore⟩ => ?_
    have hrests : ∀ f, RestsAt cfg (JournalWithin cfg images) raw f → Recoverable cfg images' f :=
      fun f h => (h.recoverable hraw).mono hgrow
    by_cases hafter : cfg.maxPayloadBytes < (s.update raw).length
    · -- too large: the commit raises before it does anything
      have hne : raw ≠ s.update raw := fun h => by
        rw [h] at hbefore
        omega
      rw [commitLockedPayload, if_neg hne, if_pos hafter]
      exact ensures_raise fun f h => hrests f h.2
    rw [not_lt] at hafter
    have hsettled : ∀ f, SettledAt cfg (s.update raw) f → Recoverable cfg images' f :=
      fun f h => (h.within (hupdate raw hraw)).recoverable (hupdate raw hraw)
    have hprepared : ∀ f, Holds cfg (preparedRecord raw (s.update raw) s.pid s.start) f.journal →
        Recoverable cfg images' f := by
      refine fun f h => ⟨.inr ⟨_, h, fun alive => ?_⟩, fun hnone => absurd hnone h.ne_none⟩
      rw [recoveryTarget]
      split
      · exact ⟨hafter, hupdate raw hraw⟩
      · exact ⟨hbefore, hgrow hraw⟩
    refine (commitLockedPayload_rests cfg (JournalWithin cfg images) raw (s.update raw) s.start
      s.pid_pos).mono (fun f h => h.2) ?_ ?_ ?_
    · rintro - f (h | ⟨-, h⟩)
      · exact hsettled f h
      · exact hrests f h
    · rintro f (h | h | h)
      · exact hrests f h
      · exact hrests f (h.within hraw)
      · exact hprepared f h
    · rintro f (h | h | h | h)
      · exact hrests f h
      · exact hrests f (h.within hraw)
      · exact hsettled f h
      · exact hprepared f h
  exact hact.state (fun _ _ h => h) (fun _ h => h) hf s.faults

/-- The result of some of the updates, in their order. -/
def appliedImages (images : Set Bytes) (sessions : List Session) : Set Bytes :=
  { image | ∃ first ∈ images, ∃ applied : List Session,
    applied.Sublist sessions ∧ image = applied.foldl (fun image s => s.update image) first }

theorem History.recoverable {sessions : List Session} (h : History cfg f sessions g)
    (hf : Recoverable cfg images f) : Recoverable cfg (appliedImages images sessions) g := by
  induction h generalizing images with
  | nil f => exact hf.mono fun image himage => ⟨image, himage, [], nil_sublist _, rfl⟩
  | @cons f g h s sessions hg _ ih =>
    have hstep : Recoverable cfg (images ∪ s.update '' images) _ :=
      s.recoverable Set.subset_union_left (fun raw hraw => .inr ⟨raw, hraw, rfl⟩) hf
    refine (ih (hstep.reopened hg)).mono ?_
    rintro _ ⟨first, hfirst | ⟨raw, hraw, rfl⟩, applied, hsub, rfl⟩
    · exact ⟨first, hfirst, applied, hsub.cons s, rfl⟩
    · exact ⟨raw, hraw, s :: applied, hsub.cons_cons s, rfl⟩

/-- A process that commits the letter b. -/
def appliedSession : Session := ⟨fun _ => bytes "b", 1, by decide, [], fun _ _ => false, []⟩

/-- A process that dies when it has emptied the main file to write the letter c. -/
def interruptedSession : Session :=
  ⟨fun _ => bytes "c", 2, by decide, [], fun _ _ => false,
    replicate 21 none ++ [some (.die ([], []))]⟩

end SchemaSanitizer
