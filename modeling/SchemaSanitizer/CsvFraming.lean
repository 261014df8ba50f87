/-
SchemaSanitizer/CsvFraming.lean

Where the CSV scanner cuts a record.  Without an escape character the scanner is
inside quotes after an odd number of quotes: a doubled quote changes this twice.
`quotedAfter` says so without chunks, without the two modes of the scanner and
without the pending state of a quote at the end of a chunk.

* `scanBytes_reads`: what the scan of the bytes of one chunk says, in these terms;
* `scanChunks_record`: a text that is not cut by a line break and ends outside
  quotes, with a line feed after it, is the record that is found, in whatever chunks
  it comes.
-/
import SchemaSanitizer.CsvScanner

namespace SchemaSanitizer

open Lib List Option

/-! ### Quotes -/

variable {c : UInt8} {rest : Bytes}

/-- A line break. -/
def IsBreak (c : UInt8) : Prop := c = lf ∨ c = cr

/-- Whether the scanner is inside quotes after some bytes, if no line break outside
quotes is among them. -/
def quotedAfter : (inQuotes : Bool) → Bytes → Option Bool
  | inQuotes, [] => some inQuotes
  | inQuotes, c :: rest =>
    if c = quote then quotedAfter (!inQuotes) rest
    else if !inQuotes && (c == lf || c == cr) then none
    else quotedAfter inQuotes rest

theorem quotedAfter_quote (inQuotes : Bool) (rest : Bytes) :
    quotedAfter inQuotes (quote :: rest) = quotedAfter (!inQuotes) rest := rfl

theorem quotedAfter_break (h : IsBreak c) (rest : Bytes) :
    quotedAfter false (c :: rest) = none := by
  rcases h with rfl | rfl <;> rfl

theorem quotedAfter_append (inQuotes : Bool) (s t : Bytes) :
    quotedAfter inQuotes (s ++ t) = (quotedAfter inQuotes s).bind (quotedAfter · t) := by
  induction s generalizing inQuotes with
  | nil => rfl
  | cons c s ih =>
    rw [cons_append, quotedAfter, quotedAfter]
    split
    · exact ih _
    · split
      · rfl
      · exact ih _

/-- **A line break outside quotes comes once**: before it the bytes are not cut, and
with it they are. -/
theorem cut_unique {inQuotes : Bool} {s t rest' : Bytes} {d : UInt8}
    (hs : quotedAfter inQuotes s = some false) (ht : quotedAfter inQuotes t = some false)
    (hc : IsBreak c) (hd : IsBreak d) (h : s ++ c :: rest = t ++ d :: rest') :
    s = t ∧ c = d ∧ rest = rest' := by
  rcases append_eq_append_iff.mp h with ⟨more, rfl, hmore⟩ | ⟨more, rfl, hmore⟩
  · cases more with
    | nil => simpa using hmore
    | cons e more =>
      injection hmore with he
      rw [quotedAfter_append, hs, bind_some, ← he, quotedAfter_break hc] at ht
      cases ht
  · cases more with
    | nil => simpa [eq_comm] using hmore
    | cons e more =>
      injection hmore with he
      rw [quotedAfter_append, ht, bind_some, ← he, quotedAfter_break hd] at hs
      cases hs

/-- A scan that stops inside a record stops before the break that ends it. -/
theorem prefix_of_cut {inQuotes after : Bool} {s t rest' : Bytes}
    (hs : quotedAfter inQuotes s = some after) (ht : quotedAfter inQuotes t = some false)
    (hc : IsBreak c) (h : s ++ rest = t ++ c :: rest') :
    ∃ more, t = s ++ more ∧ rest = more ++ c :: rest' ∧ quotedAfter after more = some false := by
  rcases append_eq_append_iff.mp h with ⟨more, rfl, hmore⟩ | ⟨more, rfl, hmore⟩
  · rw [quotedAfter_append, hs, bind_some] at ht
    exact ⟨more, rfl, hmore, ht⟩
  · cases more with
    | nil =>
      rw [append_nil] at hs
      rw [hs] at ht
      exact ⟨[], by simp, by simpa using hmore.symm, ht⟩
    | cons e more =>
      injection hmore with he
      rw [quotedAfter_append, ht, bind_some, ← he, quotedAfter_break hc] at hs
      cases hs

/-! ### One chunk -/

variable {span : RecordSpan} {offset : Nat}

/-- The span after some more bytes of the record: only the part in the current chunk
and the state of the scan change. -/
structure RecordSpan.Extends (span : RecordSpan) (bytes : Bytes) (span' : RecordSpan) : Prop where
  segment : span'.segment = span.segment ++ bytes
  segments : span'.segments = span.segments
  totalBytes : span'.totalBytes = span.totalBytes
  multi : span'.multi = span.multi
  startAbs : span'.startAbs = span.startAbs
  source : span'.source = span.source

/-- What the scan of a chunk says about its bytes. -/
def ChunkScan.Reads (span : RecordSpan) (bytes : Bytes) : ChunkScan → Prop
  | .lineBreak span' current rest _ => ∃ text tail, bytes = text ++ rest ∧ rest = current :: tail ∧
      IsBreak current ∧ quotedAfter span.inQuotes text = some false ∧ span.Extends text span' ∧
      span'.inQuotes = false
  | .quoteAtEnd span' => quotedAfter span.inQuotes bytes = some false ∧ span.Extends bytes span'
  | .exhausted span' => quotedAfter span.inQuotes bytes = some span'.inQuotes ∧
    span.Extends bytes span'

/-- A scan of the rest is a scan of the whole, after what was taken. -/
theorem ChunkScan.Reads.after {middle : RecordSpan} {bytes : Bytes} {scan : ChunkScan}
    (h : scan.Reads middle bytes) (taken : Bytes)
    (hquoted : quotedAfter span.inQuotes taken = some middle.inQuotes)
    (hextends : span.Extends taken middle) : scan.Reads span (taken ++ bytes) := by
  have hjoin : ∀ {more : Bytes} {last : RecordSpan}, middle.Extends more last →
      span.Extends (taken ++ more) last := fun hmore =>
    ⟨by rw [hmore.segment, hextends.segment, append_assoc],
      hmore.segments.trans hextends.segments, hmore.totalBytes.trans hextends.totalBytes,
      hmore.multi.trans hextends.multi, hmore.startAbs.trans hextends.startAbs,
      hmore.source.trans hextends.source⟩
  have hstate : ∀ more : Bytes,
      quotedAfter span.inQuotes (taken ++ more) = quotedAfter middle.inQuotes more := by
    intro more
    rw [quotedAfter_append, hquoted, bind_some]
  cases scan with
  | lineBreak span' current rest offset =>
    obtain ⟨text, tail, rfl, hrest, hbreak, htext, hext, hout⟩ := h
    exact ⟨taken ++ text, tail, by rw [append_assoc], hrest, hbreak,
      by rw [hstate, htext], hjoin hext, hout⟩
  | quoteAtEnd | exhausted => exact ⟨by rw [hstate, h.1], hjoin h.2⟩

theorem RecordSpan.extends_nil (span : RecordSpan) : span.Extends [] span :=
  ⟨(append_nil _).symm, rfl, rfl, rfl, rfl, rfl⟩

section Steps

variable {span : RecordSpan} {scan : ChunkScan} {rest : Bytes}

theorem reads_openQuote (hin : span.inQuotes = false)
    (h : scan.Reads (span.openQuote offset) rest) : scan.Reads span (quote :: rest) :=
  h.after [quote] (by rw [hin]; rfl) ⟨rfl, rfl, rfl, rfl, rfl, rfl⟩

theorem reads_closeQuote (hin : span.inQuotes = true) (h : scan.Reads span.closeQuote rest) :
    scan.Reads span (quote :: rest) :=
  h.after [quote] (by rw [hin]; rfl) ⟨rfl, rfl, rfl, rfl, rfl, rfl⟩

theorem reads_doubledQuote (hin : span.inQuotes = true)
    (h : scan.Reads ((span.push quote).push quote) rest) :
    scan.Reads span (quote :: quote :: rest) := by
  refine h.after [quote, quote] ?_ ⟨by simp [RecordSpan.push], rfl, rfl, rfl, rfl, rfl⟩
  show _ = some span.inQuotes
  rw [hin]
  rfl

theorem reads_push (hc : c ≠ quote) (hcut : ¬ (!span.inQuotes && (c == lf || c == cr)) = true)
    (h : scan.Reads (span.push c) rest) : scan.Reads span (c :: rest) := by
  refine h.after [c] ?_ ⟨rfl, rfl, rfl, rfl, rfl, rfl⟩
  rw [quotedAfter, if_neg hc, if_neg hcut]
  rfl

theorem reads_lineBreak (hcut : (!span.inQuotes && (c == lf || c == cr)) = true) :
    (ChunkScan.lineBreak span c (c :: rest) offset).Reads span (c :: rest) := by
  rw [Bool.and_eq_true, Bool.not_eq_true', Bool.or_eq_true, beq_iff_eq, beq_iff_eq] at hcut
  refine ⟨[], rest, rfl, rfl, hcut.2, ?_, span.extends_nil, hcut.1⟩
  rw [hcut.1]
  rfl

theorem reads_quoteAtEnd (hin : span.inQuotes = true) :
    (ChunkScan.quoteAtEnd (span.push quote)).Reads span [quote] :=
  ⟨by rw [hin]; rfl, rfl, rfl, rfl, rfl, rfl, rfl⟩

theorem reads_noteGap {gap : Nat} (h : scan.Reads (span.noteGap gap) rest) : scan.Reads span rest :=
  h.after [] rfl ⟨(append_nil _).symm, rfl, rfl, rfl, rfl, rfl⟩

end Steps

/-- **The scalar scan.** -/
theorem scanScalar_reads (span : RecordSpan) (offset : Nat) (bytes : Bytes) :
    (scanScalar 0 span offset bytes).Reads span bytes := by
  fun_induction scanScalar 0 span offset bytes with
  | case1 span => exact ⟨rfl, span.extends_nil⟩
  -- there is no escape character
  | case2 _ _ _ _ h => simp at h
  | case3 _ _ _ _ _ h => simp at h
  | case4 span offset rest _ hin _ ih => exact reads_openQuote (by simpa using hin) ih
  | case5 span offset _ hin => exact reads_quoteAtEnd (by simpa using hin)
  | case6 span offset _ hin rest _ ih => exact reads_doubledQuote (by simpa using hin) ih
  | case7 span offset _ hin d rest hd _ ih => exact reads_closeQuote (by simpa using hin) ih
  | case8 span offset c rest _ _ _ hcut => exact reads_lineBreak hcut
  | case9 span offset c rest _ _ hc hcut ih => exact reads_push hc hcut ih

/-- **The scan that jumps.**  After a quote it may go on as the scalar one. -/
theorem scanVector_reads (span : RecordSpan) (offset gap : Nat) (bytes : Bytes) :
    (scanVector span offset gap bytes).Reads span bytes := by
  fun_induction scanVector span offset gap bytes with
  | case1 => exact ⟨rfl, RecordSpan.extends_nil _⟩
  | case2 span offset gap rest noted hin _ _ ih =>
    exact reads_noteGap (reads_openQuote (by simpa using hin) ih)
  | case3 span offset gap rest noted hin =>
    exact reads_noteGap (reads_openQuote (by simpa using hin) (scanScalar_reads _ _ _))
  | case4 span offset gap noted hin =>
    exact reads_noteGap (reads_quoteAtEnd (by simpa using hin))
  | case5 span offset gap noted hin rest _ _ ih =>
    exact reads_noteGap (reads_doubledQuote (by simpa using hin) ih)
  | case6 span offset gap noted hin rest =>
    exact reads_noteGap (reads_doubledQuote (by simpa using hin) (scanScalar_reads _ _ _))
  | case7 span offset gap noted hin d rest _ _ _ ih =>
    exact reads_noteGap (reads_closeQuote (by simpa using hin) ih)
  | case8 span offset gap noted hin d rest =>
    exact reads_noteGap (reads_closeQuote (by simpa using hin) (scanScalar_reads _ _ _))
  | case9 span offset gap c rest _ hcut => exact reads_lineBreak hcut
  | case10 span offset gap c rest hc hcut ih => exact reads_push hc hcut ih

theorem scanBytes_reads {opts : CsvScanOptions} (hescape : opts.escapeChar = 0) (span : RecordSpan)
    (offset : Nat) (bytes : Bytes) : (scanBytes opts span offset bytes).Reads span bytes := by
  rw [scanBytes, hescape]
  split
  · exact scanVector_reads span offset 0 bytes
  · exact scanScalar_reads span offset bytes

/-! ### All chunks -/

variable {chunks : Nat} {span' : RecordSpan} {text : Bytes}

/-- The bytes of the chunks to come. -/
def chunkBytes (chunks : List Chunk) : Bytes := chunks.flatMap Chunk.data

@[simp] theorem chunkBytes_cons (c : Chunk) (chunks : List Chunk) :
    chunkBytes (c :: chunks) = c.data ++ chunkBytes chunks := rfl

/-- What a scanner has still to read. -/
def CsvStreamingScanner.remaining (s : CsvStreamingScanner) : Bytes :=
  s.unread ++ chunkBytes s.source

section Chunks

variable {opts : CsvScanOptions}

/-- What was read of a record so far. -/
def RecordSpan.taken (span : RecordSpan) : Bytes := span.segments.flatten ++ span.segment

/-- The record so far, with `bytes` more bytes in `chunks` more chunks, is within the
limits; the parts are counted, and a record in one chunk has no other part. -/
structure RecordSpan.Room (opts : CsvScanOptions) (span : RecordSpan)
    (bytes chunks : Nat) : Prop where
  total : span.totalBytes = span.segments.flatten.length
  single : span.multi = false → span.segments = []
  size : span.taken.length + bytes ≤ opts.maxRecordBytes
  parts : span.segments.length + 1 + chunks ≤ opts.maxRecordSegments

/-- With room left a segment is kept, and no byte of the record is lost. -/
theorem pushSegment_room {bytes : Nat} (h : span.Room opts bytes chunks) :
    ∃ span', pushSegment opts span = .ok span' ∧ span'.segment = [] ∧ span'.taken = span.taken ∧
      span'.totalBytes = span'.segments.flatten.length ∧
      span'.segments.length ≤ span.segments.length + 1 ∧ span'.inQuotes = span.inQuotes ∧
      span'.startAbs = span.startAbs ∧ span'.source = span.source := by
  obtain ⟨htotal, -, hsize, hparts⟩ := h
  rw [RecordSpan.taken, length_append] at hsize
  rw [pushSegment]
  by_cases hempty : span.segment = []
  · rw [if_pos hempty]
    exact ⟨span, rfl, hempty, rfl, htotal, Nat.le_succ _, rfl, rfl, rfl⟩
  · rw [if_neg hempty, if_neg (by omega), if_neg (by omega)]
    refine ⟨_, rfl, rfl, ?_, ?_, ?_, rfl, rfl, rfl⟩
    · simp [RecordSpan.taken]
    · simp [htotal]
    · simp

/-- With room left a finished record is the bytes taken, without a trailing CR. -/
theorem finishRecord_room (h : span.Room opts 0 chunks) (s : CsvStreamingScanner) :
    finishRecord opts s span = .ok (⟨trimTrailingCr span.taken, span.startAbs, span.source⟩,
      { s with preferVectorScan := csvVectorScanMinimum ≤
        (trimTrailingCr span.taken).length }) := by
  have htrim : ∀ record : Bytes, (trimTrailingCr record).length ≤ record.length := by
    intro record
    rw [trimTrailingCr]
    split
    · simp
    · exact le_rfl
  have hrecord : recordBytes opts span = .ok (trimTrailingCr span.taken) := by
    rw [recordBytes]
    cases hmulti : span.multi with
    | false =>
      have hsize := h.size
      have htaken : span.taken = span.segment := by
        rw [RecordSpan.taken, h.single hmulti]
        rfl
      rw [htaken] at hsize ⊢
      have hle := htrim span.segment
      rw [if_pos (show (!false) = true from rfl)]
      exact if_neg (by omega)
    | true =>
      obtain ⟨span', hpush, hsegment, htaken, -⟩ := pushSegment_room h
      rw [if_neg (by decide), hpush, ok_bind, ← htaken, RecordSpan.taken, hsegment,
        append_nil]
  rw [finishRecord, hrecord]
  rfl

theorem RecordSpan.Room.extends {more : Bytes} (h : span.Room opts (text ++ more).length chunks)
    (hext : span.Extends text span') :
    span'.taken = span.taken ++ text ∧ span'.Room opts more.length chunks := by
  have htaken : span'.taken = span.taken ++ text := by
    rw [RecordSpan.taken, RecordSpan.taken, hext.segments, hext.segment, append_assoc]
  refine ⟨htaken, ⟨?_, ?_, ?_, ?_⟩⟩
  · rw [hext.totalBytes, hext.segments, h.total]
  · rw [hext.multi, hext.segments]
    exact h.single
  · have hsize := h.size
    rw [htaken, length_append]
    rw [length_append] at hsize
    omega
  · rw [hext.segments]
    exact h.parts

/-- The bytes of a used up chunk are carried into the next chunk. -/
theorem pushSegment_next {unread more : Bytes}
    (h : span.Room opts (unread ++ more).length (chunks + 1)) (hext : span.Extends unread span') :
    ∃ kept, pushSegment opts span' = .ok kept ∧ kept.taken = span.taken ++ unread ∧
      kept.segment = [] ∧ kept.inQuotes = span'.inQuotes ∧ kept.startAbs = span.startAbs ∧
      kept.source = span.source ∧
      RecordSpan.Room opts { kept with multi := true } more.length chunks := by
  obtain ⟨htaken, hroom⟩ := h.extends hext
  obtain ⟨kept, hpush, hsegment, hsame, htotal, hparts, hin, hstart, hsource⟩ :=
    pushSegment_room hroom
  have hsize := hroom.size
  have hlen := hroom.parts
  refine ⟨kept, hpush, hsame.trans htaken, hsegment, hin, hstart.trans hext.startAbs,
    hsource.trans hext.source, htotal, fun h => ?_, ?_, ?_⟩
  · cases h
  · show kept.taken.length + more.length ≤ _
    rw [hsame]
    exact hsize
  · show kept.segments.length + 1 + chunks ≤ _
    omega

/-- At the break that ends the record, the record is returned whole. -/
theorem finishNewlineRecord_record {s : CsvStreamingScanner} {unread tail : Bytes}
    {source : List Chunk} {current : UInt8} {chunkSource : Option SourceName}
    (hroom : span.Room opts text.length source.length)
    (htext : quotedAfter span.inQuotes text = some false)
    (hall : unread ++ chunkBytes source = text ++ lf :: rest)
    (hreads : (ChunkScan.lineBreak span' current tail offset).Reads span unread) :
    ∃ t, finishNewlineRecord opts { s with source, unread := tail, offset, chunkSource } span'
          current =
        .ok (⟨trimTrailingCr (span.taken ++ text), span.startAbs, span.source⟩, t) ∧
      t.remaining = rest := by
  obtain ⟨text', tail', rfl, rfl, hbreak, htext', hext, -⟩ := hreads
  rw [append_assoc, cons_append] at hall
  obtain ⟨rfl, rfl, rfl⟩ := cut_unique htext' htext hbreak (.inl rfl) hall
  have hroom0 : span.Room opts (text' ++ []).length source.length := by rwa [append_nil]
  obtain ⟨htaken, hroom'⟩ := hroom0.extends hext
  rw [finishNewlineRecord, finishRecord_room hroom', ok_bind, htaken, hext.startAbs, hext.source]
  exact ⟨_, rfl, rfl⟩

/-- **The record that is found**: a text without a cut that ends outside quotes, up to
the line feed after it, in whatever chunks it comes. -/
theorem scanChunks_record (hescape : opts.escapeChar = 0) (s : CsvStreamingScanner)
    (source : List Chunk) (text : Bytes) (span : RecordSpan) (unread : Bytes) (offset : Nat)
    (chunkSource : Option SourceName) (hroom : span.Room opts text.length source.length)
    (htext : quotedAfter span.inQuotes text = some false)
    (hall : unread ++ chunkBytes source = text ++ lf :: rest) :
    ∃ t, scanChunks opts s span source unread offset chunkSource =
        .ok (⟨trimTrailingCr (span.taken ++ text), span.startAbs, span.source⟩, t) ∧
      t.remaining = rest := by
  have hlf : IsBreak lf := .inl rfl
  induction source generalizing text span unread offset chunkSource with
  | nil =>
    have hreads := scanBytes_reads hescape span offset unread
    -- the line feed is among the unread bytes
    have hcut : quotedAfter span.inQuotes unread = none := by
      rw [chunkBytes, flatMap_nil, append_nil] at hall
      rw [hall, quotedAfter_append, htext, bind_some, quotedAfter_break hlf]
    rw [scanChunks]
    cases hscan : scanBytes opts span offset unread with
    | lineBreak span' current tail offset' =>
      rw [hscan] at hreads
      exact finishNewlineRecord_record hroom htext hall hreads
    | exhausted | quoteAtEnd =>
      rw [hscan] at hreads
      cases hcut.symm.trans hreads.1
  | cons c source ih =>
    have hreads := scanBytes_reads hescape span offset unread
    rw [scanChunks]
    cases hscan : scanBytes opts span offset unread with
    | lineBreak span' current tail offset' =>
      rw [hscan] at hreads
      exact finishNewlineRecord_record hroom htext hall hreads
    | exhausted span' =>
      rw [hscan] at hreads
      obtain ⟨hquoted, hext⟩ := hreads
      obtain ⟨more, rfl, hmore, hout⟩ := prefix_of_cut hquoted htext hlf hall
      obtain ⟨kept, hpush, htaken, -, hin, hstart, hsource, hkept⟩ := pushSegment_next hroom hext
      dsimp only
      rw [hpush, ok_bind, ← append_assoc, ← htaken, ← hstart, ← hsource]
      exact ih more _ c.data c.baseOffset c.source hkept
        (by show quotedAfter kept.inQuotes more = _; rw [hin, hout]) hmore
    | quoteAtEnd span' =>
      rw [hscan] at hreads
      obtain ⟨hquoted, hext⟩ := hreads
      obtain ⟨more, rfl, hmore, hout⟩ := prefix_of_cut hquoted htext hlf hall
      obtain ⟨kept, hpush, htaken, hsegment, -, hstart, hsource, hkept⟩ :=
        pushSegment_next hroom hext
      dsimp only
      rw [hpush, ok_bind, ← append_assoc, ← htaken, ← hstart, ← hsource]
      rw [chunkBytes_cons] at hmore
      cases hdata : c.data with
      | nil =>
        rw [hdata] at hmore
        exact ih more _ [] c.baseOffset c.source { hkept with } hout hmore
      | cons d data =>
        rw [hdata] at hmore
        dsimp only
        split
        · -- the second half of a doubled quote
          rename_i hd
          subst hd
          cases more with
          | nil =>
            injection hmore with hquote
            exact absurd hquote (by decide)
          | cons d more =>
            injection hmore with hd hmore
            subst hd
            have hquote : kept.taken ++ quote :: more =
                RecordSpan.taken { kept with segment := [quote] } ++ more := by
              simp [RecordSpan.taken, hsegment]
            rw [hquote]
            refine ih more _ data (c.baseOffset + 1) c.source { hkept with size := ?_ } hout hmore
            have hsize := hkept.size
            rw [RecordSpan.taken, length_append] at hsize ⊢
            simp only [hsegment, length_nil, length_cons] at hsize ⊢
            omega
        · exact ih more _ (d :: data) c.baseOffset c.source { hkept with } hout hmore

/-- **The first record of a source.** -/
theorem nextRecord_start (hescape : opts.escapeChar = 0) (stream : ChunkStream)
    (hbytes : chunkBytes stream.chunks = text ++ lf :: rest)
    (htext : quotedAfter false text = some false) (hsize : text.length ≤ opts.maxRecordBytes)
    (hparts : stream.chunks.length ≤ opts.maxRecordSegments) :
    ∃ r t, nextRecord opts (.start stream) = .ok (r, t) ∧ r.view = trimTrailingCr text ∧
      t.remaining = rest := by
  obtain ⟨c, chunks, hchunks⟩ : ∃ c chunks, stream.chunks = c :: chunks := by
    apply exists_cons_of_ne_nil
    intro hnil
    rw [hnil, chunkBytes, flatMap_nil] at hbytes
    simp at hbytes
  have hdata : c.data ≠ [] := stream.nonempty c (by rw [hchunks]; exact mem_cons_self)
  obtain ⟨b, data, hcons⟩ := exists_cons_of_ne_nil hdata
  have hstart : (CsvStreamingScanner.start stream).prepareRecordStart =
      (true, { source := chunks, endOffset := stream.endOffset, haveChunk := true,
               unread := c.data, offset := c.baseOffset, chunkSource := c.source }) := by
    simp [CsvStreamingScanner.prepareRecordStart, CsvStreamingScanner.ensureChunk,
      CsvStreamingScanner.refill, CsvStreamingScanner.consumePendingLf, CsvStreamingScanner.start,
      hchunks, hcons]
  rw [hchunks, chunkBytes_cons] at hbytes
  rw [hchunks, length_cons] at hparts
  have hroom : RecordSpan.Room opts
      { startAbs := c.baseOffset, source := c.source, vectorScan := opts.escapeChar == 0 && false }
      text.length chunks.length :=
    ⟨rfl, fun _ => rfl, by simpa [RecordSpan.taken] using hsize, by simpa [Nat.add_comm]
      using hparts⟩
  obtain ⟨t, hscan, hrest⟩ := scanChunks_record hescape
    { source := chunks, endOffset := stream.endOffset, haveChunk := true, unread := c.data,
      offset := c.baseOffset, chunkSource := c.source }
    chunks text _ c.data c.baseOffset c.source hroom htext hbytes
  rw [nextRecord, hstart]
  exact ⟨_, t, hscan, rfl, hrest⟩

end Chunks

end SchemaSanitizer
