/-
SchemaSanitizer/CsvScanner.lean

The streaming CSV scanner (`internal/parsing/streaming/csv/scanner.cc`,
`record_span.cc`, `record_buffer.cc`): input comes in chunks, and records are
cut at line breaks outside quotes.

The cursor `pos_` into `chunk_.data` is kept as the unread rest of the chunk and
its absolute offset; the part of the record that lies in the current chunk is
`RecordSpan.segment`.  Memory owners of slices are left out.  What a chunk source
gives is a list of chunks, which the scanner takes one by one; a source ends
with an empty chunk, so the others are not empty (`ChunkStream`).

One record is scanned in two modes.  The scalar one looks at every byte.  The
other jumps to the next quote or line break; its search is the recursion of
`scanVector`, and `gap` counts the bytes it passes.  Four quotes with short gaps
in a row switch it off for the rest of the record.
-/
import SchemaSanitizer.Bytes
import SchemaSanitizer.Lib.Failure

namespace SchemaSanitizer

open Lib List

/-! ### Chunks -/

/-- The file a chunk comes from: `source_index` and `source_name`. -/
structure SourceName where
  index : Nat
  name : Bytes
  deriving DecidableEq, Repr

/-- `Chunk`. -/
structure Chunk where
  data : Bytes
  baseOffset : Nat := 0
  source : Option SourceName := none
  deriving DecidableEq, Repr

/-- The chunks of a source, and the offset of the empty chunk at its end. -/
structure ChunkStream where
  chunks : List Chunk
  endOffset : Nat
  nonempty : ∀ c ∈ chunks, c.data ≠ []

/-- `TextSlice`. -/
structure TextSlice where
  view : Bytes
  baseOffset : Nat
  source : Option SourceName := none
  deriving DecidableEq, Repr

/-! ### Scanner state -/

/-- The line breaks, and the quote. -/
def lf : UInt8 := 10
@[inherit_doc lf] def cr : UInt8 := 13
@[inherit_doc lf] def quote : UInt8 := 34

/-- The parameters of a scanner; the limits are at least one, and the escape
character zero means that there is none. -/
structure CsvScanOptions where
  maxRecordBytes : Nat
  maxRecordSegments : Nat
  escapeChar : UInt8

/-- `CsvStreamingScanner`. -/
structure CsvStreamingScanner where
  source : List Chunk
  endOffset : Nat
  haveChunk : Bool := false
  /-- `chunk_.data` from `pos_` on -/
  unread : Bytes := []
  /-- the absolute offset of the first unread byte -/
  offset : Nat := 0
  chunkSource : Option SourceName := none
  eof : Bool := false
  pendingConsumeLf : Bool := false
  preferVectorScan : Bool := false

/-- A scanner at the start of a source (`Reset`). -/
def CsvStreamingScanner.start (stream : ChunkStream) : CsvStreamingScanner where
  source := stream.chunks
  endOffset := stream.endOffset

namespace CsvStreamingScanner

variable (s : CsvStreamingScanner)

/-- `refill`. -/
def refill : CsvStreamingScanner :=
  match s.source with
  | [] =>
    { s with
      haveChunk := true, unread := [], offset := s.endOffset, chunkSource := none, eof := true }
  | c :: rest =>
    { s with
      source := rest, haveChunk := true, unread := c.data, offset := c.baseOffset,
      chunkSource := c.source, eof := c.data.isEmpty }

/-- `ensure_chunk`. -/
def ensureChunk : CsvStreamingScanner :=
  if s.haveChunk && (!s.unread.isEmpty || s.eof) then s else s.refill

/-- `consume_pending_lf`. -/
def consumePendingLf : CsvStreamingScanner :=
  if s.pendingConsumeLf then
    match s.unread with
    | c :: rest =>
      if c = lf then { s with pendingConsumeLf := false, unread := rest, offset := s.offset + 1 }
      else { s with pendingConsumeLf := false }
    | [] => { s with pendingConsumeLf := false }
  else s

/-- `prepare_record_start`.  Only the chunk at the end of the input is empty, so
after `ensure_chunk` that is the one without unread bytes.  The second round of
the loop finds nothing pending. -/
def prepareRecordStart : Bool × CsvStreamingScanner :=
  let s := s.ensureChunk
  if s.unread.isEmpty then (false, s)
  else
    let s := s.consumePendingLf
    if !s.unread.isEmpty then (true, s)
    else if s.eof then (false, s)
    else
      let s := s.refill
      (!s.unread.isEmpty, s)

/-- `done`. -/
def done : Bool := s.eof && (!s.haveChunk || s.unread.isEmpty)

/-- `consume_newline`, with the line break as the first unread byte. -/
def consumeNewline (current : UInt8) : CsvStreamingScanner :=
  let rest := s.unread.tail
  if current = cr then
    match rest with
    | c :: rest' =>
      if c = lf then { s with unread := rest', offset := s.offset + 2 }
      else { s with unread := rest, offset := s.offset + 1 }
    | [] =>
      { s with
        unread := [], offset := s.offset + 1, pendingConsumeLf := !s.eof || s.pendingConsumeLf }
  else { s with unread := rest, offset := s.offset + 1 }

end CsvStreamingScanner

/-- The errors of the scanner. -/
inductive CsvScanError
  /-- a record in one chunk that is too large -/
  | recordTooLarge (size limit : Nat)
  /-- a record over several chunks that gets too large -/
  | recordGrowsTooLarge (limit : Nat)
  | tooManySegments
  | unterminatedQuote (offset : Nat)
  deriving DecidableEq, Repr

/-- The message of an error. -/
def CsvScanError.message : CsvScanError → Bytes
  | .recordTooLarge size limit =>
    bytes "CSV raw record size exceeds effective operation limit: " ++ decimal size ++
      bytes " > " ++
      decimal limit
  | .recordGrowsTooLarge limit =>
    bytes "CSV raw record size exceeds effective operation limit: " ++ decimal limit
  | .tooManySegments => bytes "CSV record spans too many input chunks"
  | .unterminatedQuote offset =>
    bytes "CSV parse error at byte " ++ decimal offset ++
      bytes ": unterminated quoted field at end of file"

/-! ### The bytes of one chunk -/

/-- `CsvRecordSpanScanner`, with the local variables of `scan`. -/
structure RecordSpan where
  startAbs : Nat
  source : Option SourceName
  inQuotes : Bool := false
  escapePending : Bool := false
  multi : Bool := false
  openingQuoteAbs : Option Nat := none
  /-- the bytes of the record in the current chunk -/
  segment : Bytes := []
  /-- the parts in earlier chunks -/
  segments : List Bytes := []
  totalBytes : Nat := 0
  vectorScan : Bool := false
  shortQuoteRun : Nat := 0

/-- One more byte of the record. -/
def RecordSpan.push (span : RecordSpan) (c : UInt8) : RecordSpan :=
  { span with segment := span.segment ++ [c] }

/-- Why the scan of a chunk ends. -/
inductive ChunkScan
  /-- a line break outside quotes; it is the first of the unread bytes -/
  | lineBreak (span : RecordSpan) (current : UInt8) (rest : Bytes) (offset : Nat)
  /-- a quote inside quotes is the last byte of the chunk -/
  | quoteAtEnd (span : RecordSpan)
  | exhausted (span : RecordSpan)

/-- `handle_quote` where it opens a quoted part. -/
def RecordSpan.openQuote (span : RecordSpan) (offset : Nat) : RecordSpan :=
  { span with inQuotes := true, openingQuoteAbs := some offset, segment := span.segment ++ [quote] }

/-- `handle_quote` where it closes a quoted part. -/
def RecordSpan.closeQuote (span : RecordSpan) : RecordSpan :=
  { span with inQuotes := false, openingQuoteAbs := none, segment := span.segment ++ [quote] }

/-- `kCsvDenseQuoteGap`. -/
def csvDenseQuoteGap : Nat := 16

/-- `kCsvDenseQuoteRun`. -/
def csvDenseQuoteRun : Nat := 4

/-- The count of quotes with short gaps, and what follows from it. -/
def RecordSpan.noteGap (span : RecordSpan) (gap : Nat) : RecordSpan :=
  let run := if gap ≤ csvDenseQuoteGap then span.shortQuoteRun + 1 else 0
  { span with shortQuoteRun := run, vectorScan := span.vectorScan && run < csvDenseQuoteRun }

/-- The scalar loop of `scan`. -/
def scanScalar (escapeChar : UInt8) : RecordSpan → Nat → Bytes → ChunkScan
  | span, _, [] => .exhausted span
  | span, offset, c :: rest =>
    if span.inQuotes && escapeChar != 0 && span.escapePending then
      scanScalar escapeChar { span.push c with escapePending := false } (offset + 1) rest
    else if span.inQuotes && escapeChar != 0 && c == escapeChar then
      scanScalar escapeChar { span.push c with escapePending := true } (offset + 1) rest
    else if c = quote then
      if !span.inQuotes then scanScalar escapeChar (span.openQuote offset) (offset + 1) rest
      else
        match rest with
        | [] => .quoteAtEnd (span.push quote)
        | d :: rest' =>
          if d = quote then
            scanScalar escapeChar ((span.push quote).push quote) (offset + 2) rest'
          else scanScalar escapeChar span.closeQuote (offset + 1) (d :: rest')
    else if !span.inQuotes && (c == lf || c == cr) then .lineBreak span c (c :: rest) offset
    else scanScalar escapeChar (span.push c) (offset + 1) rest

/-- The other loop of `scan`, for scanners without an escape character: from a
byte on, `gap` bytes after the last jump.  After a quote the mode may change. -/
def scanVector : RecordSpan → (offset gap : Nat) → Bytes → ChunkScan
  | span, _, _, [] => .exhausted span
  | span, offset, gap, c :: rest =>
    if c = quote then
      let span := span.noteGap gap
      if !span.inQuotes then
        let span := span.openQuote offset
        if span.vectorScan then scanVector span (offset + 1) 0 rest
        else scanScalar 0 span (offset + 1) rest
      else
        match rest with
        | [] => .quoteAtEnd (span.push quote)
        | d :: rest' =>
          if d = quote then
            let span := (span.push quote).push quote
            if span.vectorScan then scanVector span (offset + 2) 0 rest'
            else scanScalar 0 span (offset + 2) rest'
          else
            let span := span.closeQuote
            if span.vectorScan then scanVector span (offset + 1) 0 (d :: rest')
            else scanScalar 0 span (offset + 1) (d :: rest')
    else if !span.inQuotes && (c == lf || c == cr) then .lineBreak span c (c :: rest) offset
    else scanVector (span.push c) (offset + 1) (gap + 1) rest

/-- The scan of the unread bytes of a chunk. -/
def scanBytes (opts : CsvScanOptions) (span : RecordSpan) (offset : Nat) (unread : Bytes) :
    ChunkScan :=
  if span.vectorScan then scanVector span offset 0 unread
  else scanScalar opts.escapeChar span offset unread

/-! ### Records -/

section Records

variable (opts : CsvScanOptions)

/-- `push_segment`, up to the end of what was read. -/
def pushSegment (span : RecordSpan) : Except CsvScanError RecordSpan :=
  if span.segment = [] then .ok span
  else if opts.maxRecordBytes < span.segment.length ∨
      opts.maxRecordBytes - span.segment.length < span.totalBytes then
    .error (.recordGrowsTooLarge opts.maxRecordBytes)
  else if opts.maxRecordSegments ≤ span.segments.length then .error .tooManySegments
  else
    .ok { span with
      segment := []
      segments := span.segments ++ [span.segment]
      totalBytes := span.totalBytes + span.segment.length }

/-- A record without a carriage return at its end (`trim_trailing_cr`). -/
def trimTrailingCr (record : Bytes) : Bytes :=
  if record.getLast? = some cr then record.dropLast else record

/-- `kCsvVectorScanMinimum`. -/
def csvVectorScanMinimum : Nat := 1024

/-- The bytes of a finished record: a view into one chunk, or the copy of its
parts (`materialize_segments`). -/
def recordBytes (span : RecordSpan) : Except CsvScanError Bytes :=
  if !span.multi then
    let record := trimTrailingCr span.segment
    if opts.maxRecordBytes < record.length then
      .error (.recordTooLarge record.length opts.maxRecordBytes)
    else .ok record
  else do
    let span ← pushSegment opts span
    .ok (trimTrailingCr span.segments.flatten)

/-- The slice of a finished record, and the scanner that notes its size. -/
def finishRecord (s : CsvStreamingScanner) (span : RecordSpan) :
    Except CsvScanError (TextSlice × CsvStreamingScanner) := do
  let record ← recordBytes opts span
  .ok (⟨record, span.startAbs, span.source⟩,
    { s with preferVectorScan := csvVectorScanMinimum ≤ record.length })

/-- `finish_newline_record`. -/
def finishNewlineRecord (s : CsvStreamingScanner) (span : RecordSpan) (current : UInt8) :
    Except CsvScanError (TextSlice × CsvStreamingScanner) := do
  let r ← finishRecord opts s span
  .ok (r.1, r.2.consumeNewline current)

/-- `finish_eof_record`. -/
def finishEofRecord (s : CsvStreamingScanner) (span : RecordSpan) :
    Except CsvScanError (TextSlice × CsvStreamingScanner) :=
  if span.inQuotes then .error (.unterminatedQuote (span.openingQuoteAbs.getD span.startAbs))
  else finishRecord opts s span

/-- The loop of `scan`, over the chunks that are left.  `s` is the scanner with
the current chunk; at the end of the input it has the empty chunk
(`handle_chunk_end`, `span_to_next_chunk`). -/
def scanChunks (s : CsvStreamingScanner) (span : RecordSpan) :
    List Chunk → (unread : Bytes) → (offset : Nat) → (chunkSource : Option SourceName) →
      Except CsvScanError (TextSlice × CsvStreamingScanner)
  | source, unread, offset, chunkSource =>
    match scanBytes opts span offset unread with
    | .lineBreak span current unread offset =>
      finishNewlineRecord opts { s with source, unread, offset, chunkSource } span current
    | .exhausted span => do
        let span ← pushSegment opts span
        let span := { span with multi := true }
        match source with
        | [] =>
          finishEofRecord opts
            { s with
              source := [], unread := [], offset := s.endOffset, chunkSource := none, eof := true }
            span
        | c :: rest => scanChunks s span rest c.data c.baseOffset c.source
    | .quoteAtEnd span => do
        let span ← pushSegment opts span
        let span := { span with multi := true, inQuotes := false }
        match source with
        | [] =>
          finishEofRecord opts
            { s with
              source := [], unread := [], offset := s.endOffset, chunkSource := none, eof := true }
            { span with openingQuoteAbs := none }
        | c :: rest =>
          match c.data with
          | [] => scanChunks s { span with openingQuoteAbs := none } rest [] c.baseOffset c.source
          | d :: data =>
            -- the two halves of a doubled quote
            if d = quote then
              scanChunks s { span with inQuotes := true, segment := [quote] } rest data
                (c.baseOffset + 1) c.source
            else
              scanChunks s { span with openingQuoteAbs := none } rest (d :: data) c.baseOffset
                c.source

/-- `scan_csv_record_span`. -/
def scanCsvRecordSpan (s : CsvStreamingScanner) :
    Except CsvScanError (TextSlice × CsvStreamingScanner) :=
  scanChunks opts s
    { startAbs := s.offset
      source := s.chunkSource
      vectorScan := opts.escapeChar == 0 && s.preferVectorScan }
    s.source s.unread s.offset s.chunkSource

/-- `next_record`. -/
def nextRecord (s : CsvStreamingScanner) : Except CsvScanError (TextSlice × CsvStreamingScanner) :=
  let start := s.prepareRecordStart
  if !start.1 then .ok (⟨[], start.2.endOffset, none⟩, start.2)
  else scanCsvRecordSpan opts start.2

end Records

end SchemaSanitizer
