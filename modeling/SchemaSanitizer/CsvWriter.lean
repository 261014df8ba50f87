/-
SchemaSanitizer/CsvWriter.lean

The rows the CSV stream writer makes of string columns
(`internal/csv/csv_stream_writer.cc`), and what is read back from them.

A value is put in quotes if it has a comma, a quote or a line break in it; any other
value is written as it is.  The reader trims unquoted cells, so a value with a space
or a tab at one of its ends comes back without it, unless something else in it asked
for quotes.  `written_row_read_iff` says that nothing else is lost: for every row, in
whatever chunks its text reaches the scanner.
-/
import SchemaSanitizer.CsvCells
import SchemaSanitizer.CsvFraming

namespace SchemaSanitizer

open Lib List

/-! ### The writer -/

/-- `needs_csv_quotes`. -/
def needsCsvQuotes (value : Bytes) : Bool :=
  value.any fun c => c == comma || c == quote || c == cr || c == lf

/-- `append_csv_escaped`: what it appends. -/
def csvEscaped (value : Bytes) : Bytes :=
  if needsCsvQuotes value then quoteCsvCell value else value

/-- `append_csv_cell` for a string column; a null writes nothing. -/
def csvStringCell : Option Bytes → Bytes
  | none => []
  | some value => csvEscaped value

/-- One row of `append_rows_csv`, for string columns. -/
def csvRow (cells : List (Option Bytes)) : Bytes :=
  List.intercalate [comma] (cells.map csvStringCell) ++ [lf]

/-! ### Unquoted cells -/

variable {delimiter : UInt8} {limits : CsvCellLimits}

section Unquoted

variable {cell : Bytes}

theorem not_needsCsvQuotes (h : needsCsvQuotes cell = false) :
    comma ∉ cell ∧ quote ∉ cell ∧ lf ∉ cell := by
  have hnone : ∀ c ∈ cell, ¬ (c == comma || c == quote || c == cr || c == lf) = true := by
    simpa only [needsCsvQuotes, any_eq_false] using h
  refine ⟨fun hc => hnone _ hc rfl, fun hc => hnone _ hc rfl, fun hc => hnone _ hc rfl⟩

theorem scanUnquotedCsvCell_append_delimiter (hdelim : delimiter ∉ cell)
    (hquote : quote ∉ cell) (offset : Nat) (rest : Bytes) :
    scanUnquotedCsvCell delimiter offset (cell ++ delimiter :: rest) =
      .ok (cell, delimiter :: rest) := by
  induction cell generalizing offset with
  | nil => rw [nil_append, scanUnquotedCsvCell, if_pos rfl]
  | cons c cell ih =>
    obtain ⟨hc, hcell⟩ := not_or.mp fun h => hdelim (mem_cons.mpr h)
    obtain ⟨hq, hcellq⟩ := not_or.mp fun h => hquote (mem_cons.mpr h)
    rw [cons_append, scanUnquotedCsvCell, if_neg (Ne.symm hc), if_neg (Ne.symm hq),
      ih hcell hcellq]
    rfl

theorem scanUnquotedCsvCell_end (hdelim : delimiter ∉ cell) (hquote : quote ∉ cell) (offset : Nat) :
    scanUnquotedCsvCell delimiter offset cell = .ok (cell, []) := by
  induction cell generalizing offset with
  | nil => rw [scanUnquotedCsvCell]
  | cons c cell ih =>
    obtain ⟨hc, hcell⟩ := not_or.mp fun h => hdelim (mem_cons.mpr h)
    obtain ⟨hq, hcellq⟩ := not_or.mp fun h => hquote (mem_cons.mpr h)
    rw [scanUnquotedCsvCell, if_neg (Ne.symm hc), if_neg (Ne.symm hq), ih hcell hcellq]
    rfl

/-- **An unquoted cell is read as what trimming leaves of it.** -/
theorem readsAs_unquoted (hne : cell ≠ []) (hdelim : delimiter ∉ cell) (hquote : quote ∉ cell) :
    ReadsAs limits delimiter cell (trimCsvCell cell) := by
  obtain ⟨c, cell, rfl⟩ := exists_cons_of_ne_nil hne
  obtain ⟨hc, hcell⟩ := not_or.mp fun h => hdelim (mem_cons.mpr h)
  obtain ⟨hq, hcellq⟩ := not_or.mp fun h => hquote (mem_cons.mpr h)
  constructor
  · intro out charged offset hfits
    rw [parseCsvLoop_unquoted (Ne.symm hc) (Ne.symm hq),
      scanUnquotedCsvCell_end hcell hcellq, ok_bind]
    dsimp only
    rw [hfits.charge, ok_bind, hfits.append, ok_bind, tail_nil, parseCsvLoop]
  · intro out charged offset rest hfits
    rw [cons_append, parseCsvLoop_unquoted (Ne.symm hc) (Ne.symm hq),
      scanUnquotedCsvCell_append_delimiter hcell hcellq, ok_bind]
    dsimp only
    rw [hfits.charge, ok_bind, hfits.append, ok_bind, tail_cons]
    exact ⟨_, rfl⟩

end Unquoted

/-! ### What trimming changes -/

/-- A cell with a space or a tab at one of its ends. -/
def csvBlankEnd (cell : Bytes) : Bool := cell.head?.any csvBlank || cell.getLast?.any csvBlank

theorem trimCsvCell_eq_self_iff (cell : Bytes) : trimCsvCell cell = cell ↔
    csvBlankEnd cell = false := by
  have htrim : trimCsvCell cell = (cell.dropWhile csvBlank).rdropWhile csvBlank := rfl
  have hleft := dropWhile_suffix (l := cell) csvBlank
  have hright := rdropWhile_prefix csvBlank (cell.dropWhile csvBlank)
  have hboth : trimCsvCell cell = cell ↔
      cell.dropWhile csvBlank = cell ∧ cell.rdropWhile csvBlank = cell := by
    rw [htrim]
    constructor
    · intro h
      -- nothing is dropped on either side, as nothing is dropped in all
      have hlen := hright.length_le
      rw [h] at hlen
      have hdrop := hleft.eq_of_length (le_antisymm hleft.length_le hlen)
      rw [hdrop] at h
      exact ⟨hdrop, h⟩
    · rintro ⟨hdrop, hrdrop⟩
      rw [hdrop, hrdrop]
  rw [hboth, csvBlankEnd, Bool.or_eq_false_iff, dropWhile_eq_self_iff,
    rdropWhile_eq_self_iff]
  cases cell with
  | nil => simp
  | cons c cell => simp [getLast?_eq_getLast_of_ne_nil]

/-- What is read back from a written value. -/
def csvReadBack (value : Bytes) : Bytes := if needsCsvQuotes value then value else trimCsvCell value

theorem csvReadBack_eq_self_iff (value : Bytes) :
    csvReadBack value = value ↔ needsCsvQuotes value = true ∨ csvBlankEnd value = false := by
  rw [csvReadBack]
  cases needsCsvQuotes value with
  | true => simp
  | false => simp [trimCsvCell_eq_self_iff]

theorem csvReadBack_length_le (value : Bytes) : (csvReadBack value).length ≤ value.length := by
  have hleft := (dropWhile_suffix (l := value) csvBlank).length_le
  have hright : (value.dropWhile csvBlank).rdropWhile csvBlank <+: value.dropWhile csvBlank :=
    rdropWhile_prefix csvBlank _
  rw [csvReadBack]
  split
  · exact le_rfl
  · exact hright.length_le.trans hleft

theorem recordFits_readBack {row : List Bytes} (h : RecordFits limits row) :
    RecordFits limits (row.map csvReadBack) where
  count := by
    rw [length_map]
    exact h.count
  field := by
    intro c hc
    obtain ⟨value, hvalue, rfl⟩ := mem_map.mp hc
    exact (csvReadBack_length_le value).trans (h.field value hvalue)
  record := by
    refine le_trans ?_ h.record
    rw [map_map]
    exact sum_le_sum fun value _ => csvReadBack_length_le value

/-! ### Written values -/

section Written

variable {value : Bytes}

theorem csvEscaped_ne_nil (h : value ≠ []) : csvEscaped value ≠ [] := by
  rw [csvEscaped]
  split
  · exact cons_ne_nil _ _
  · exact h

theorem getLast?_csvEscaped {b : UInt8} (hb : b ≠ quote)
    (h : needsCsvQuotes value = false → b ∉ value) :
    (csvEscaped value).getLast? ≠ some b := by
  rw [csvEscaped]
  cases hneeds : needsCsvQuotes value with
  | true =>
    rw [if_pos rfl, getLast?_quoteCsvCell]
    exact fun h => hb (Option.some.inj h).symm
  | false =>
    rw [if_neg (by decide)]
    exact fun hlast => h hneeds (mem_of_getLast? hlast)

theorem validUtf8_csvEscaped (h : ValidUtf8 value) : ValidUtf8 (csvEscaped value) := by
  rw [csvEscaped]
  split
  · exact validUtf8_quoteCsvCell h
  · exact h

/-- **A written value is read as `csvReadBack` says.** -/
theorem readsAs_csvEscaped (hne : value ≠ []) (hcr : cr ∉ value) :
    ReadsAs limits comma (csvEscaped value) (csvReadBack value) := by
  rw [csvEscaped, csvReadBack]
  cases hneeds : needsCsvQuotes value with
  | true => exact readsAs_quoteCsvCell (by decide) (by decide) (by decide) hcr
  | false =>
    obtain ⟨hcomma, hquote, -⟩ := not_needsCsvQuotes hneeds
    exact readsAs_unquoted hne hcomma hquote

/-- Between quotes nothing is cut, and doubled quotes are two changes. -/
theorem quotedAfter_doubleQuotes (value : Bytes) :
    quotedAfter true (doubleQuotes value) = some true := by
  induction value with
  | nil => rfl
  | cons c value ih =>
    by_cases hc : c = quote
    · rw [hc, doubleQuotes_quote, quotedAfter_quote, quotedAfter_quote]
      exact ih
    · rw [doubleQuotes_cons hc, quotedAfter, if_neg hc, if_neg (by simp)]
      exact ih

/-- An escaped value leaves the reader outside quotes. -/
theorem quotedAfter_csvEscaped (hcr : cr ∉ value) :
    quotedAfter false (csvEscaped value) = some false := by
  rw [csvEscaped]
  cases hneeds : needsCsvQuotes value with
  | true =>
    rw [if_pos rfl, quoteCsvCell, quotedAfter_append, quotedAfter_quote]
    show (quotedAfter true (doubleQuotes value)).bind _ = _
    rw [quotedAfter_doubleQuotes]
    rfl
  | false =>
    obtain ⟨-, hquote, hlf⟩ := not_needsCsvQuotes hneeds
    rw [if_neg (by decide)]
    clear hneeds
    induction value with
    | nil => rfl
    | cons c value ih =>
      simp only [mem_cons, not_or] at hcr hquote hlf
      have hcut : ¬ (!false && (c == lf || c == cr)) = true := by
        rw [Bool.not_false, Bool.true_and, Bool.or_eq_true, beq_iff_eq, beq_iff_eq]
        rintro (rfl | rfl)
        · exact hlf.1 rfl
        · exact hcr.1 rfl
      rw [quotedAfter, if_neg (Ne.symm hquote.1), if_neg hcut]
      exact ih hcr.2 hquote.2 hlf.2

theorem quotedAfter_intercalate {texts : List Bytes}
    (h : ∀ t ∈ texts, quotedAfter false t = some false) :
    quotedAfter false (intercalate [comma] texts) = some false := by
  induction texts with
  | nil => rfl
  | cons t texts ih =>
    obtain ⟨ht, htexts⟩ := forall_mem_cons.mp h
    cases texts with
    | nil => rwa [intercalate_singleton]
    | cons u texts =>
      rw [intercalate_cons_cons, append_assoc, quotedAfter_append, ht,
        Option.bind_some, singleton_append]
      exact ih htexts

end Written

/-! ### Written rows -/

/-- **A written row is read back exactly if no value has a blank at an end, unless
the value is in quotes.** -/
theorem written_row_read_iff {opts : CsvScanOptions} (hescape : opts.escapeChar = 0)
    (limits : CsvCellLimits) {row : List Bytes} (hrow : row ≠ []) (hne : ∀ c ∈ row, c ≠ [])
    (hvalid : ∀ c ∈ row, ValidUtf8 c) (hcr : ∀ c ∈ row, cr ∉ c) (hfits : RecordFits limits row)
    (stream : ChunkStream) {rest : Bytes}
    (hbytes : chunkBytes stream.chunks = csvRow (row.map some) ++ rest)
    (hsize : (csvRow (row.map some)).length ≤ opts.maxRecordBytes)
    (hparts : stream.chunks.length ≤ opts.maxRecordSegments) :
    (∃ record s, nextRecord opts (.start stream) = .ok (record, s) ∧
        parseCsvCells limits comma 0 record.baseOffset record.view = .ok row) ↔
      ∀ c ∈ row, needsCsvQuotes c = true ∨ csvBlankEnd c = false := by
  have htexts : (row.map some).map csvStringCell = row.map csvEscaped := by
    rw [map_map]
    rfl
  rw [csvRow, htexts] at hbytes hsize
  rw [append_assoc, singleton_append] at hbytes
  rw [length_append, length_singleton] at hsize
  have hquoted : quotedAfter false (intercalate [comma] (row.map csvEscaped)) = some false := by
    apply quotedAfter_intercalate
    rw [forall_mem_map]
    exact fun c hc => quotedAfter_csvEscaped (hcr c hc)
  have hlast : (intercalate [comma] (row.map csvEscaped)).getLast? ≠ some cr := by
    apply getLast?_intercalate
    rw [forall_mem_map]
    exact fun c hc => ⟨csvEscaped_ne_nil (hne c hc), getLast?_csvEscaped (by decide) fun _ =>
      hcr c hc⟩
  obtain ⟨record, s, hnext, hview, -⟩ :=
    nextRecord_start hescape stream hbytes hquoted (by omega) hparts
  rw [trimTrailingCr, if_neg hlast] at hview
  have hread : ∀ base, parseCsvCells limits comma 0 base
      (intercalate [comma] (row.map csvEscaped)) = .ok (row.map csvReadBack) := by
    have hpairs := @parseCsvCells_intercalate limits comma (by decide)
      (row.map fun c => (csvEscaped c, csvReadBack c)) (by simpa using hrow)
    rw [show csvDelim comma = comma from rfl] at hpairs
    simp only [map_map, Function.comp_def, forall_mem_map] at hpairs
    apply hpairs
    · exact fun c hc => readsAs_csvEscaped (hne c hc) (hcr c hc)
    · exact fun c hc => validUtf8_csvEscaped (hvalid c hc)
    · exact fun c hc => ⟨csvEscaped_ne_nil (hne c hc), getLast?_csvEscaped (by decide) fun hneeds =>
        (not_needsCsvQuotes hneeds).1⟩
    · exact recordFits_readBack hfits
  have hsame : row.map csvReadBack = row ↔ ∀ c ∈ row, csvReadBack c = c := by
    conv_lhs => rhs; rw [← map_id row]
    exact map_inj_left
  simp only [csvReadBack_eq_self_iff] at hsame
  rw [← hsame]
  constructor
  · rintro ⟨record', s', hnext', hparse⟩
    obtain ⟨rfl, -⟩ := Prod.mk.inj (Except.ok.inj (hnext.symm.trans hnext'))
    rw [hview, hread] at hparse
    exact Except.ok.inj hparse
  · intro hback
    refine ⟨record, s, hnext, ?_⟩
    rw [hview, hread, hback]

/-- A source that gives a text in one chunk. -/
def oneChunk (text : Bytes) (h : text ≠ []) : ChunkStream where
  chunks := [{ data := text }]
  endOffset := text.length
  nonempty := by simpa using h

/-- A row with a comma in a value. -/
theorem written_row_read_comma :
    ∃ record s, nextRecord ⟨64, 4, 0⟩ (.start (oneChunk (bytes "\"a,b\",c\n") (by decide))) =
        .ok (record, s) ∧
      parseCsvCells {} comma 0 record.baseOffset record.view = .ok [bytes "a,b", bytes "c"] := by
  have hvalid : ∀ c ∈ [bytes "a,b", bytes "c"], ValidUtf8 c := by
    simpa using ⟨validUtf8_bytes (by decide), validUtf8_bytes (by decide)⟩
  have hread := @written_row_read_iff ⟨64, 4, 0⟩ rfl {} [bytes "a,b", bytes "c"]
    (by decide) (by decide)
    hvalid (by decide) (recordFits_small (by decide) (by decide))
    (oneChunk (bytes "\"a,b\",c\n") (by decide)) [] (by decide) (by decide) (by decide)
  exact hread.mpr (by decide)

/-- A value with a space before it is written without quotes, and the reader trims
it. -/
theorem written_space_trimmed :
    csvRow [some (bytes " a")] = bytes " a\n" ∧
      (∃ s, nextRecord ⟨64, 4, 0⟩ (.start (oneChunk (bytes " a\n") (by decide))) =
        .ok (⟨bytes " a", 0, none⟩, s)) ∧
      parseCsvCells {} comma 0 0 (bytes " a") = .ok [bytes "a"] := by
  refine ⟨by decide, ⟨_, rfl⟩, ?_⟩
  have hfits : CellFits {} 0 0 (trimCsvCell (bytes " a")).length :=
    ⟨by decide, by decide, by decide⟩
  have hreads : ReadsAs {} comma (bytes " a") (trimCsvCell (bytes " a")) :=
    readsAs_unquoted (by decide) (by decide) (by decide)
  exact parseCsvCells_of_loop (validUtf8_bytes (by decide)) 0 (by decide)
    (@hreads.last [] 0 0 hfits)

end SchemaSanitizer
