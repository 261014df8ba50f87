/-
SchemaSanitizer/CsvCells.lean

The cells of one CSV record (`internal/parsing/csv_parse.hh`): a record is valid
UTF-8, cells stand between delimiters, a cell that starts with a quote runs to its
closing quote and has its inner quotes doubled, any other cell loses the spaces
and tabs at its ends.

A position in the record is kept as its absolute offset (`base_offset` plus the
position, which is what the messages show) together with the bytes from there on.
The end of a quoted cell is kept as the bytes before and after its closing quote.
Sizes that leave `std::size_t` and failed allocations are left out.
-/
import SchemaSanitizer.CsvScanner
import SchemaSanitizer.Lib.Utf8

namespace SchemaSanitizer

open Lib List

/-- The blanks of a record. -/
def space : UInt8 := 32
@[inherit_doc space] def tab : UInt8 := 9

/-- The default delimiter. -/
def comma : UInt8 := 44

/-! ### Options -/

/-- The part of the options check that concerns the delimiter and the escape
character; both are given as strings. -/
def checkCsvOptions (delimiter escape : Bytes) : Except Bytes Unit :=
  if delimiter ≠ [] ∧ delimiter.length ≠ 1 then
    .error (bytes "csv_delimiter must be a 1-character string")
  else if 1 < escape.length then
    .error (bytes "csv_escape_char must be empty or a 1-character string")
  else
    match escape with
    | [] => .ok ()
    | e :: _ =>
      if e = delimiter.headD comma ∨ e = quote ∨ e = cr ∨ e = lf ∨ e = 0 then
        .error (bytes "csv_escape_char must differ from the delimiter and quote, and " ++
          bytes "must not be a line break or NUL")
      else .ok ()

/-- `kMaxCsvCellsPerRecord`. -/
def maxCsvCellsPerRecord : Nat := 65536

/-- The limits of one call of `parse_csv_cells`. -/
structure CsvCellLimits where
  maxFieldBytes : Nat := 64 * 1024 * 1024
  maxDecodedRecordBytes : Nat := 256 * 1024 * 1024

/-- Why a record is refused, and where. -/
inductive CsvCellError
  | leadingByte (offset : Nat)
  | truncated (offset : Nat)
  | continuationByte (offset : Nat)
  | scalarValue (offset : Nat)
  | danglingEscape (offset : Nat)
  | decodedFieldTooLarge (offset size limit : Nat)
  | unterminated (offset : Nat)
  | afterClosingQuote (offset : Nat)
  | tooManyCells (count : Nat)
  | fieldTooLarge (offset size limit : Nat)
  | recordTooLarge (offset limit : Nat)
  | strayQuote (offset : Nat)
  deriving DecidableEq, Repr

/-- The message of a syntax error. -/
def csvParseErrorAt (offset : Nat) (what : String) : Bytes :=
  bytes "CSV parse error at byte " ++ decimal offset ++ bytes ": " ++ bytes what

/-- The message of an error. -/
def CsvCellError.message : CsvCellError → Bytes
  | .leadingByte offset => csvParseErrorAt offset "invalid UTF-8 leading byte"
  | .truncated offset => csvParseErrorAt offset "truncated UTF-8 sequence"
  | .continuationByte offset => csvParseErrorAt offset "invalid UTF-8 continuation byte"
  | .scalarValue offset => csvParseErrorAt offset "invalid UTF-8 scalar value"
  | .danglingEscape offset => csvParseErrorAt offset "dangling escape at end of quoted field"
  | .decodedFieldTooLarge offset size limit =>
    bytes "CSV decoded field size exceeds effective limit at byte " ++ decimal offset ++
      bytes ": " ++ decimal size ++ bytes " > " ++ decimal limit
  | .unterminated offset => csvParseErrorAt offset "unterminated quoted field at end of record"
  | .afterClosingQuote offset => csvParseErrorAt offset "unexpected byte after closing quote"
  | .tooManyCells count =>
    bytes "CSV record cell count exceeds safety limit: " ++ decimal count ++ bytes " > " ++
      decimal maxCsvCellsPerRecord
  | .fieldTooLarge offset size limit =>
    bytes "CSV field size exceeds effective limit at byte " ++ decimal offset ++ bytes ": " ++
      decimal size ++ bytes " > " ++ decimal limit
  | .recordTooLarge offset limit =>
    bytes "CSV decoded record size exceeds effective limit at byte " ++ decimal offset ++
      bytes ": limit " ++ decimal limit
  | .strayQuote offset =>
    csvParseErrorAt offset "quote is only valid at the start of a quoted field"

/-! ### UTF-8 -/

/-- What a lead byte says: the length of the character, the payload of the byte
and the least code point that needs this length. -/
def csvUtf8Lead (lead : UInt8) : Option (Nat × Nat × Nat) :=
  if 0xC2 ≤ lead ∧ lead ≤ 0xDF then some (2, lead.toNat &&& 0x1F, 0x80)
  else if 0xE0 ≤ lead ∧ lead ≤ 0xEF then some (3, lead.toNat &&& 0x0F, 0x800)
  else if 0xF0 ≤ lead ∧ lead ≤ 0xF4 then some (4, lead.toNat &&& 0x07, 0x10000)
  else none

/-- The code point after the continuation bytes. -/
def csvUtf8Continue : (offset codePoint : Nat) → Bytes → Except CsvCellError Nat
  | _, codePoint, [] => .ok codePoint
  | offset, codePoint, c :: more =>
    if c &&& 0xC0 ≠ 0x80 then .error (.continuationByte offset)
    else csvUtf8Continue (offset + 1) (codePoint <<< 6 ||| (c.toNat &&& 0x3F)) more

/-- `validate_csv_utf8`. -/
def validateCsvUtf8 (offset : Nat) (text : Bytes) : Except CsvCellError Unit :=
  match text with
  | [] => .ok ()
  | lead :: rest =>
    if lead < 0x80 then validateCsvUtf8 (offset + 1) rest
    else
      match csvUtf8Lead lead with
      | none => .error (.leadingByte offset)
      | some (length, payload, minimum) =>
        if rest.length + 1 < length then .error (.truncated offset)
        else do
          let codePoint ← csvUtf8Continue (offset + 1) payload (rest.take (length - 1))
          if codePoint < minimum ∨ 0x10FFFF < codePoint ∨
              (0xD800 ≤ codePoint ∧ codePoint ≤ 0xDFFF) then .error (.scalarValue offset)
          else validateCsvUtf8 (offset + length) (rest.drop (length - 1))
termination_by text.length
decreasing_by
  · simp
  · simp only [length_drop, length_cons]
    omega

/-! ### Cells -/

/-- A blank: what is trimmed, and what may follow a closing quote. -/
def csvBlank (c : UInt8) : Bool := c == space || c == tab

/-- `trim_csv_cell`. -/
def trimCsvCell (cell : Bytes) : Bytes :=
  ((cell.dropWhile csvBlank).reverse.dropWhile csvBlank).reverse

/-- `QuotedCsvCellScan`: the size of the cell, what stands between its quotes, and
what follows. -/
structure QuotedCsvCellScan where
  decodedSize : Nat
  body : Bytes
  rest : Bytes
  deriving DecidableEq, Repr

/-- The scan with more bytes before what it found. -/
def QuotedCsvCellScan.before (taken : Bytes) (scan : QuotedCsvCellScan) : QuotedCsvCellScan :=
  { scan with body := taken ++ scan.body }

section Quoted

variable (start maxFieldBytes : Nat) (escapeChar : UInt8)

/-- One more byte of a quoted cell. -/
def countQuotedByte (offset decoded : Nat) : Except CsvCellError Nat :=
  if maxFieldBytes < decoded + 1 then
    .error (.decodedFieldTooLarge offset (decoded + 1) maxFieldBytes)
  else .ok (decoded + 1)

/-- `scan_quoted_csv_cell`, from the byte after the opening quote (at `start`) on. -/
def scanQuotedCsvCell : (offset decoded : Nat) → Bytes → Except CsvCellError QuotedCsvCellScan
  | _, _, [] => .error (.unterminated start)
  | offset, decoded, c :: rest =>
    if escapeChar ≠ 0 ∧ c = escapeChar then
      match rest with
      | [] => .error (.danglingEscape offset)
      | d :: rest' => do
          let decoded ← countQuotedByte maxFieldBytes offset decoded
          (scanQuotedCsvCell (offset + 2) decoded rest').map (.before [c, d])
    else if c = cr then
      match rest with
      | [] => do
          let decoded ← countQuotedByte maxFieldBytes offset decoded
          (scanQuotedCsvCell (offset + 1) decoded []).map (.before [c])
      | d :: rest' => do
          let decoded ← countQuotedByte maxFieldBytes offset decoded
          if d = lf then (scanQuotedCsvCell (offset + 2) decoded rest').map (.before [c, d])
          else (scanQuotedCsvCell (offset + 1) decoded (d :: rest')).map (.before [c])
    else if c ≠ quote then do
      let decoded ← countQuotedByte maxFieldBytes offset decoded
      (scanQuotedCsvCell (offset + 1) decoded rest).map (.before [c])
    else
      match rest with
      | [] => .ok ⟨decoded, [], []⟩
      | d :: rest' =>
        if d = quote then do
          let decoded ← countQuotedByte maxFieldBytes offset decoded
          (scanQuotedCsvCell (offset + 2) decoded rest').map (.before [c, d])
        else .ok ⟨decoded, [], d :: rest'⟩

/-- The second pass of `parse_quoted_csv_cell`: what the bytes between the quotes
stand for. -/
def decodeQuotedCsvCell : Bytes → Bytes
  | [] => []
  | [c] => if c = cr then [lf] else [c]
  | c :: d :: rest =>
    if escapeChar ≠ 0 ∧ c = escapeChar then d :: decodeQuotedCsvCell rest
    else if c = cr then
      if d = lf then lf :: decodeQuotedCsvCell rest else lf :: decodeQuotedCsvCell (d :: rest)
    else if c = quote ∧ d = quote then quote :: decodeQuotedCsvCell rest
    else c :: decodeQuotedCsvCell (d :: rest)

/-- `parse_quoted_csv_cell`: the cell and what follows its closing quote. -/
def parseQuotedCsvCell (bytes : Bytes) : Except CsvCellError (Bytes × QuotedCsvCellScan) := do
  let scan ← scanQuotedCsvCell start maxFieldBytes escapeChar (start + 1) 0 bytes
  .ok (if scan.decodedSize = 0 then [] else decodeQuotedCsvCell escapeChar scan.body, scan)

/-- The second loop of `parse_quoted_csv_cell` over the row: `left` bytes stand between
`source` and the closing quote.  What is written, and the row from where it stops. -/
def fillQuotedCsvCell : (left : Nat) → (row : Bytes) → Bytes × Bytes
  | _, [] => ([], [])
  | 0, c :: rest => ([], c :: rest)
  | left + 1, [c] =>
    let r := fillQuotedCsvCell left []
    (if c = cr then lf :: r.1 else c :: r.1, r.2)
  | left + 1, c :: d :: rest =>
    if escapeChar ≠ 0 ∧ c = escapeChar ∧ 0 < left then
      let r := fillQuotedCsvCell (left - 1) rest
      (d :: r.1, r.2)
    else if c = cr then
      if 0 < left ∧ d = lf then
        let r := fillQuotedCsvCell (left - 1) rest
        (lf :: r.1, r.2)
      else
        let r := fillQuotedCsvCell left (d :: rest)
        (lf :: r.1, r.2)
    else if c = quote ∧ 0 < left ∧ d = quote then
      let r := fillQuotedCsvCell (left - 1) rest
      (quote :: r.1, r.2)
    else
      let r := fillQuotedCsvCell left (d :: rest)
      (c :: r.1, r.2)

end Quoted

/-- `advance_after_quoted_csv_cell`. -/
def advanceAfterQuotedCsvCell (delimiter : UInt8) :
    (offset : Nat) → Bytes → Except CsvCellError (Nat × Bytes)
  | offset, [] => .ok (offset, [])
  | offset, c :: rest =>
    if c = space ∨ c = tab then advanceAfterQuotedCsvCell delimiter (offset + 1) rest
    else if c ≠ delimiter then .error (.afterClosingQuote offset)
    else .ok (offset + 1, rest)

/-- The bytes of an unquoted cell, up to the delimiter or the end of the record. -/
def scanUnquotedCsvCell (delimiter : UInt8) : (offset : Nat) → Bytes →
    Except CsvCellError (Bytes × Bytes)
  | _, [] => .ok ([], [])
  | offset, c :: rest =>
    if c = delimiter then .ok ([], c :: rest)
    else if c = quote then .error (.strayQuote offset)
    else (scanUnquotedCsvCell delimiter (offset + 1) rest).map fun r => (c :: r.1, r.2)

/-- `append_csv_cell`. -/
def appendCsvCell (out : List Bytes) (value : Bytes) : Except CsvCellError (List Bytes) :=
  if maxCsvCellsPerRecord ≤ out.length then .error (.tooManyCells (out.length + 1))
  else .ok (out ++ [value])

/-- `charge_decoded`: the bytes charged so far with those of one more cell. -/
def chargeDecoded (limits : CsvCellLimits) (charged size offset : Nat) : Except CsvCellError Nat :=
  if limits.maxFieldBytes < size then .error (.fieldTooLarge offset size limits.maxFieldBytes)
  else if limits.maxDecodedRecordBytes < size ∨ limits.maxDecodedRecordBytes - size < charged then
    .error (.recordTooLarge offset limits.maxDecodedRecordBytes)
  else .ok (charged + size)

/-! ### Records -/

variable {offset : Nat}

section Passes

variable {start maxFieldBytes decoded : Nat} {escapeChar : UInt8} {bytes : Bytes}
  {scan : QuotedCsvCellScan}

/-- The scan has passed bytes up to a quote, and it has counted what the second pass makes
of them. -/
def QuotedCsvCellScan.Counts (escapeChar : UInt8) (decoded : Nat) (bytes : Bytes)
    (scan : QuotedCsvCellScan) : Prop :=
  scan.body ++ quote :: scan.rest = bytes ∧
    decoded + (decodeQuotedCsvCell escapeChar scan.body).length = scan.decodedSize

/-- Bytes that the second pass makes one byte of, before the rest of a quoted cell. -/
theorem counts_of_before {taken : Bytes} {next : Nat → Except CsvCellError QuotedCsvCellScan}
    (h : (countQuotedByte maxFieldBytes offset decoded >>= fun n => (next n).map (.before taken)) =
      .ok scan)
    (hnext : ∀ n {inner}, next n = .ok inner → inner.Counts escapeChar n bytes)
    (hone : ∀ body rest, body ++ quote :: rest = bytes →
      (decodeQuotedCsvCell escapeChar (taken ++ body)).length =
        (decodeQuotedCsvCell escapeChar body).length + 1) :
    scan.Counts escapeChar decoded (taken ++ bytes) := by
  obtain ⟨n, hn, h⟩ := bind_eq_ok_iff.mp h
  obtain rfl : n = decoded + 1 := by
    rw [countQuotedByte] at hn
    split at hn <;> cases hn
    rfl
  cases hinner : next (decoded + 1) with
  | error e =>
    rw [hinner] at h
    cases h
  | ok inner =>
    rw [hinner] at h
    cases h
    obtain ⟨hbytes, hsize⟩ := hnext _ hinner
    have hlength := hone _ _ hbytes
    refine ⟨by simp [QuotedCsvCellScan.before, ← hbytes], ?_⟩
    simp only [QuotedCsvCellScan.before]
    omega

theorem decodeQuotedCsvCell_cons {c : UInt8} {body : Bytes}
    (hescape : ¬ (escapeChar ≠ 0 ∧ c = escapeChar)) (hquote : c ≠ quote)
    (hlf : c = cr → body.head? ≠ some lf) :
    (decodeQuotedCsvCell escapeChar (c :: body)).length =
      (decodeQuotedCsvCell escapeChar body).length + 1 := by
  cases body with
  | nil =>
    simp only [decodeQuotedCsvCell]
    split <;> rfl
  | cons d body =>
    rw [decodeQuotedCsvCell, if_neg hescape]
    by_cases hcr : c = cr
    · rw [if_pos hcr, if_neg (by simpa using hlf hcr), length_cons]
    · rw [if_neg hcr, if_neg fun h => hquote h.1, length_cons]

/-- The counts of a quoted scan are those of the bytes it passed. -/
theorem scanQuotedCsvCell_counts
    (h : scanQuotedCsvCell start maxFieldBytes escapeChar offset decoded bytes = .ok scan) :
    scan.Counts escapeChar decoded bytes := by
  fun_induction scanQuotedCsvCell start maxFieldBytes escapeChar offset decoded bytes
    generalizing scan with
  | case1 | case2 => cases h
  | case3 offset decoded c hescape d rest ih =>
    exact counts_of_before h ih fun _ _ _ => by simp [decodeQuotedCsvCell, hescape]
  | case4 offset decoded hescape ih =>
    exact counts_of_before h ih fun _ _ hbytes => by simp at hbytes
  | case5 offset decoded d rest' hescape ih2 ih1 =>
    by_cases hd : d = lf
    · simp only [if_pos hd] at h
      exact counts_of_before h ih2 fun _ _ _ => by simp [decodeQuotedCsvCell, hescape, hd]
    · -- the byte after the carriage return is the next one of the cell, or its closing quote
      simp only [if_neg hd] at h
      refine counts_of_before h ih1 fun body rest hbytes =>
        decodeQuotedCsvCell_cons hescape (by decide) fun _ hhead => hd ?_
      obtain ⟨body, rfl⟩ := head?_eq_some_iff.mp hhead
      exact (cons_eq_cons.mp hbytes).1.symm
  | case6 offset decoded c rest hescape hcr hquote ih =>
    exact counts_of_before h ih fun _ _ _ =>
      decodeQuotedCsvCell_cons hescape hquote fun h => absurd h hcr
  | case8 offset decoded c hescape hcr hquote rest ih =>
    obtain rfl := not_not.mp hquote
    exact counts_of_before h ih fun _ _ _ => by simp [decodeQuotedCsvCell, hescape, hcr]
  | case7 offset decoded c hescape hcr hquote | case9 offset decoded c hescape hcr hquote =>
    cases h
    simpa [QuotedCsvCellScan.Counts, decodeQuotedCsvCell] using Eq.symm (not_not.mp hquote)

theorem scanQuotedCsvCell_length
    (h : scanQuotedCsvCell start maxFieldBytes escapeChar offset decoded bytes = .ok scan) :
    scan.rest.length < bytes.length := by
  rw [← (scanQuotedCsvCell_counts h).1, length_append, length_cons]
  omega

theorem fillQuotedCsvCell_append (body tail : Bytes) :
    fillQuotedCsvCell escapeChar body.length (body ++ tail) =
      (decodeQuotedCsvCell escapeChar body, tail) := by
  have hstop : ∀ tail, fillQuotedCsvCell escapeChar 0 tail = ([], tail) := by
    intro tail
    cases tail <;> rfl
  fun_induction decodeQuotedCsvCell escapeChar body with
  | case1 => exact hstop tail
  | case2 | case3 => cases tail <;> simp_all [fillQuotedCsvCell]
  | case8 c d rest hescape hcr hquote ih =>
    simp only [cons_append, length_cons] at ih ⊢
    rw [fillQuotedCsvCell, if_neg fun h => hescape ⟨h.1, h.2.1⟩, if_neg hcr,
      if_neg fun h => hquote ⟨h.1, h.2.2⟩, ih]
  | _ => simp_all [fillQuotedCsvCell]

/-- **Decoding agrees with its sizing pass**: the bytes that the scan has passed end at a
quote, the second pass stops there, and it has written as many bytes as were counted. -/
theorem fillQuotedCsvCell_agrees
    (h : scanQuotedCsvCell start maxFieldBytes escapeChar (start + 1) 0 bytes = .ok scan) :
    bytes = scan.body ++ quote :: scan.rest ∧
      (fillQuotedCsvCell escapeChar scan.body.length bytes).1.length = scan.decodedSize ∧
      (fillQuotedCsvCell escapeChar scan.body.length bytes).2 = quote :: scan.rest := by
  obtain ⟨hbytes, hsize⟩ := scanQuotedCsvCell_counts h
  rw [← hbytes, fillQuotedCsvCell_append]
  exact ⟨rfl, (Nat.zero_add _).symm.trans hsize, rfl⟩

end Passes

variable {escapeChar delimiter : UInt8}

/-- A cell with a doubled quote, a line break and an escaped quote. -/
theorem fillQuotedCsvCell_agrees_sample :
    (fillQuotedCsvCell 92 7 [quote, quote, cr, lf, 92, quote, 97, quote, space]).1.length = 4 := by
  have hscan : scanQuotedCsvCell 0 4 92 1 0 [quote, quote, cr, lf, 92, quote, 97, quote, space] =
      .ok ⟨4, [quote, quote, cr, lf, 92, quote, 97], [space]⟩ := by
    simp [scanQuotedCsvCell, countQuotedByte, quote, cr, lf, space]
    rfl
  exact (fillQuotedCsvCell_agrees hscan).2.1

theorem parseQuotedCsvCell_length {start maxFieldBytes : Nat} {bytes : Bytes}
    {r : Bytes × QuotedCsvCellScan}
    (h : parseQuotedCsvCell start maxFieldBytes escapeChar bytes = .ok r) :
    r.2.rest.length < bytes.length := by
  obtain ⟨scan, hscan, hok⟩ := bind_eq_ok_iff.mp h
  injection hok with hok
  rw [← hok]
  exact scanQuotedCsvCell_length hscan

theorem advanceAfterQuotedCsvCell_length {bytes : Bytes} {r : Nat × Bytes}
    (h : advanceAfterQuotedCsvCell delimiter offset bytes = .ok r) : r.2.length ≤ bytes.length := by
  fun_induction advanceAfterQuotedCsvCell delimiter offset bytes with
  | case1 | case4 =>
    injection h with h
    simp [← h]
  | case2 offset c rest _ ih => exact (ih h).trans (Nat.le_succ _)
  | case3 => cases h

theorem scanUnquotedCsvCell_append {bytes : Bytes} {r : Bytes × Bytes}
    (h : scanUnquotedCsvCell delimiter offset bytes = .ok r) : r.1 ++ r.2 = bytes := by
  fun_induction scanUnquotedCsvCell delimiter offset bytes generalizing r with
  | case1 | case2 =>
    injection h with h
    simp [← h]
  | case3 => cases h
  | case4 offset c rest _ _ ih =>
    cases hrest : scanUnquotedCsvCell delimiter (offset + 1) rest with
    | error e =>
      rw [hrest] at h
      cases h
    | ok r' =>
      rw [hrest] at h
      injection h with h
      rw [← h]
      simp [ih hrest]

section Parse

variable (limits : CsvCellLimits) (delimiter escapeChar : UInt8)

/-- The loop of `parse_csv_cells`, from a cell on. -/
def parseCsvLoop (out : List Bytes) (charged offset : Nat) (row : Bytes) :
    Except CsvCellError (List Bytes) :=
  match row with
  | [] => .ok out
  | c :: rest =>
    if c = delimiter then do
      let out ← appendCsvCell out []
      parseCsvLoop out charged (offset + 1) rest
    else if c = quote then
      match _ : parseQuotedCsvCell offset limits.maxFieldBytes escapeChar rest with
      | .error e => .error e
      | .ok (value, scan) => do
          let charged ← chargeDecoded limits charged value.length offset
          let out ← appendCsvCell out value
          match _ : advanceAfterQuotedCsvCell delimiter (offset + scan.body.length + 2)
              scan.rest with
          | .error e => .error e
          | .ok (offset, next) => parseCsvLoop out charged offset next
    else
      match _ : scanUnquotedCsvCell delimiter (offset + 1) rest with
      | .error e => .error e
      | .ok (cell, next) => do
          let value := trimCsvCell (c :: cell)
          let charged ← chargeDecoded limits charged value.length offset
          let out ← appendCsvCell out value
          parseCsvLoop out charged (offset + (c :: cell).length + 1) next.tail
termination_by row.length
decreasing_by
  · simp
  · have hquoted := parseQuotedCsvCell_length ‹_›
    have hafter := advanceAfterQuotedCsvCell_length ‹_›
    simp only [length_cons] at hquoted hafter ⊢
    omega
  · have hlen := congrArg List.length (scanUnquotedCsvCell_append ‹_›)
    simp only [length_append, length_tail, length_cons] at hlen ⊢
    omega

/-- The delimiter that is used: NUL stands for the default one. -/
def csvDelim : UInt8 := if delimiter = 0 then comma else delimiter

/-- `parse_csv_cells`. -/
def parseCsvCells (baseOffset : Nat) (row : Bytes) : Except CsvCellError (List Bytes) := do
  validateCsvUtf8 baseOffset row
  let out ← parseCsvLoop limits (csvDelim delimiter) escapeChar [] 0 baseOffset row
  if row.getLast? = some (csvDelim delimiter) then appendCsvCell out [] else .ok out

end Parse

/-! ### Valid UTF-8 is accepted -/

variable {c : UInt8}

theorem continuation_mask (h : IsContinuation c) : c &&& 0xC0 = 0x80 :=
  forall_byte (motive := fun c => 0x80 ≤ c ∧ c ≤ 0xBF → c &&& 0xC0 = 0x80) (by decide +kernel) c h

theorem codePoint_continue (codePoint n : Nat) :
    codePoint <<< 6 ||| (n &&& 0x3F) = codePoint * 64 + n % 64 := by
  have hmask : n &&& 0x3F = n % 64 := Nat.and_two_pow_sub_one_eq_mod n 6
  have hlt : n % 64 < 2 ^ 6 := Nat.mod_lt n (by decide)
  rw [hmask, ← Nat.shiftLeft_add_eq_or_of_lt hlt, Nat.shiftLeft_eq]

theorem csvUtf8Continue_cons (offset codePoint : Nat) (h : IsContinuation c) (more : Bytes) :
    csvUtf8Continue offset codePoint (c :: more) =
      csvUtf8Continue (offset + 1) (codePoint * 64 + c.toNat % 64) more := by
  rw [csvUtf8Continue, if_neg (not_not.mpr (continuation_mask h)), codePoint_continue]

theorem continuation_toNat_mod (h : IsContinuation c) : c.toNat % 64 = c.toNat - 128 := by
  have h1 : 128 ≤ c.toNat := UInt8.le_iff_toNat_le.mp h.1
  have h2 : c.toNat ≤ 191 := UInt8.le_iff_toNat_le.mp h.2
  omega

theorem validateCsvUtf8_long (codePoint : Nat) {length payload minimum : Nat} {lead : UInt8}
    {more tail : Bytes} (hlead : csvUtf8Lead lead = some (length, payload, minimum))
    (hhigh : 0x80 ≤ lead) (hlen : more.length + 1 = length)
    (hcontinue : csvUtf8Continue (offset + 1) payload more = .ok codePoint)
    (hmin : minimum ≤ codePoint) (hmax : codePoint ≤ 0x10FFFF)
    (hsurrogate : codePoint < 0xD800 ∨ 0xDFFF < codePoint) :
    validateCsvUtf8 offset (lead :: more ++ tail) =
      validateCsvUtf8 (offset + (lead :: more).length) tail := by
  subst hlen
  have hascii : ¬ lead < 0x80 := UInt8.not_lt.mpr hhigh
  have hscalar : ¬ (codePoint < minimum ∨ 0x10FFFF < codePoint ∨
      (0xD800 ≤ codePoint ∧ codePoint ≤ 0xDFFF)) := by omega
  have hlong : ¬ (more ++ tail).length + 1 < more.length + 1 := by simp
  rw [cons_append, validateCsvUtf8]
  simp only [if_neg hascii, hlead, if_neg hlong, Nat.add_sub_cancel, take_left, drop_left,
    hcontinue, ok_bind, if_neg hscalar, length_cons]

theorem toNat_of_eq_imp {a b v lo : UInt8} (h : a = v → lo ≤ b) :
    a.toNat = v.toNat → lo.toNat ≤ b.toNat :=
  fun ha => UInt8.le_iff_toNat_le.mp (h (UInt8.toNat_inj.mp ha))

/-- The validator passes every character of the encoding. -/
theorem validateCsvUtf8_character (offset : Nat) {c : Bytes} (h : Utf8Char c) (tail : Bytes) :
    validateCsvUtf8 offset (c ++ tail) = validateCsvUtf8 (offset + c.length) tail := by
  cases h with
  | ascii ha =>
    rw [singleton_append, validateCsvUtf8]
    simp only [if_pos ha, length_singleton]
  | @two a b hlo hhi hb =>
    have hlead : csvUtf8Lead a = some (2, a.toNat &&& 0x1F, 0x80) := if_pos ⟨hlo, hhi⟩
    have hmask : a.toNat &&& 0x1F = a.toNat % 32 := Nat.and_two_pow_sub_one_eq_mod _ 5
    have hlo' : 0xC2 ≤ a.toNat := UInt8.le_iff_toNat_le.mp hlo
    have hhi' : a.toNat ≤ 0xDF := UInt8.le_iff_toNat_le.mp hhi
    refine validateCsvUtf8_long (a.toNat % 32 * 64 + b.toNat % 64) hlead
      (UInt8.le_trans (by decide : (0x80 : UInt8) ≤ 0xC2) hlo) rfl ?_ ?_ ?_ ?_
    · rw [csvUtf8Continue_cons _ _ hb, csvUtf8Continue, hmask]
    all_goals omega
  | @three a b c hlo hhi hb hE0 hED hc =>
    have hnot2 : ¬ (0xC2 ≤ a ∧ a ≤ 0xDF) := fun h => absurd (UInt8.le_trans hlo h.2) (by decide)
    have hlead : csvUtf8Lead a = some (3, a.toNat &&& 0x0F, 0x800) := by
      rw [csvUtf8Lead, if_neg hnot2, if_pos ⟨hlo, hhi⟩]
    have hmask : a.toNat &&& 0x0F = a.toNat % 16 := Nat.and_two_pow_sub_one_eq_mod _ 4
    have hlo' : 0xE0 ≤ a.toNat := UInt8.le_iff_toNat_le.mp hlo
    have hhi' : a.toNat ≤ 0xEF := UInt8.le_iff_toNat_le.mp hhi
    have hE0' : a.toNat = 0xE0 → 0xA0 ≤ b.toNat := toNat_of_eq_imp hE0
    have hED' : a.toNat = 0xED → b.toNat ≤ 0x9F := fun h =>
      UInt8.le_iff_toNat_le.mp (hED (UInt8.toNat_inj.mp h))
    have hbmod := continuation_toNat_mod hb
    have hb1 : 128 ≤ b.toNat := UInt8.le_iff_toNat_le.mp hb.1
    refine validateCsvUtf8_long
      ((a.toNat % 16 * 64 + b.toNat % 64) * 64 + c.toNat % 64) hlead
      (UInt8.le_trans (by decide : (0x80 : UInt8) ≤ 0xE0) hlo) rfl ?_ ?_ ?_ ?_
    · rw [csvUtf8Continue_cons _ _ hb, csvUtf8Continue_cons _ _ hc, csvUtf8Continue, hmask]
    all_goals omega
  | @four a b c d hlo hhi hb hF0 hF4 hc hd =>
    have hnot2 : ¬ (0xC2 ≤ a ∧ a ≤ 0xDF) := fun h => absurd (UInt8.le_trans hlo h.2) (by decide)
    have hnot3 : ¬ (0xE0 ≤ a ∧ a ≤ 0xEF) := fun h => absurd (UInt8.le_trans hlo h.2) (by decide)
    have hlead : csvUtf8Lead a = some (4, a.toNat &&& 0x07, 0x10000) := by
      rw [csvUtf8Lead, if_neg hnot2, if_neg hnot3, if_pos ⟨hlo, hhi⟩]
    have hmask : a.toNat &&& 0x07 = a.toNat % 8 := Nat.and_two_pow_sub_one_eq_mod _ 3
    have hlo' : 0xF0 ≤ a.toNat := UInt8.le_iff_toNat_le.mp hlo
    have hhi' : a.toNat ≤ 0xF4 := UInt8.le_iff_toNat_le.mp hhi
    have hF0' : a.toNat = 0xF0 → 0x90 ≤ b.toNat := toNat_of_eq_imp hF0
    have hF4' : a.toNat = 0xF4 → b.toNat ≤ 0x8F := fun h =>
      UInt8.le_iff_toNat_le.mp (hF4 (UInt8.toNat_inj.mp h))
    have hbmod := continuation_toNat_mod hb
    have hb1 : 128 ≤ b.toNat := UInt8.le_iff_toNat_le.mp hb.1
    refine validateCsvUtf8_long
      (((a.toNat % 8 * 64 + b.toNat % 64) * 64 + c.toNat % 64) * 64 + d.toNat % 64)
      hlead (UInt8.le_trans (by decide : (0x80 : UInt8) ≤ 0xF0) hlo) rfl ?_ ?_ ?_ ?_
    · rw [csvUtf8Continue_cons _ _ hb, csvUtf8Continue_cons _ _ hc, csvUtf8Continue_cons _ _ hd,
        csvUtf8Continue, hmask]
    all_goals omega

/-- **Valid UTF-8 is accepted.** -/
theorem validateCsvUtf8_ok {text : Bytes} (h : ValidUtf8 text) (offset : Nat) :
    validateCsvUtf8 offset text = .ok () := by
  induction h generalizing offset with
  | nil => rw [validateCsvUtf8]
  | cons hc _ ih => rw [validateCsvUtf8_character offset hc, ih]

/-! ### Quoted cells -/

variable {cell rest : Bytes}

/-- A text with its quotes doubled. -/
def doubleQuotes (cell : Bytes) : Bytes := cell.flatMap fun c =>
    if c = quote then [quote, quote] else [c]

/-- A text in quotes. -/
def quoteCsvCell (cell : Bytes) : Bytes := quote :: doubleQuotes cell ++ [quote]

theorem doubleQuotes_quote (cell : Bytes) :
    doubleQuotes (quote :: cell) = quote :: quote :: doubleQuotes cell := rfl

theorem doubleQuotes_cons (h : c ≠ quote) (cell : Bytes) :
    doubleQuotes (c :: cell) = c :: doubleQuotes cell := by
  simp [doubleQuotes, h]

/-- The scan of a quoted cell finds the closing quote and counts the bytes of the
cell.  What follows does not start with a quote, or it would be read as half of a
doubled one. -/
theorem scanQuotedCsvCell_doubleQuotes (start maxFieldBytes : Nat) (hcr : cr ∉ cell)
    (hrest : rest.head? ≠ some quote) (offset decoded : Nat)
    (hsize : decoded + cell.length ≤ maxFieldBytes) :
    scanQuotedCsvCell start maxFieldBytes 0 offset decoded (doubleQuotes cell ++ quote :: rest) =
      .ok ⟨decoded + cell.length, doubleQuotes cell, rest⟩ := by
  induction cell generalizing offset decoded with
  | nil =>
    have hne : ¬ quote = cr := by decide
    rw [show doubleQuotes [] ++ quote :: rest = quote :: rest from rfl, scanQuotedCsvCell.eq_def]
    dsimp only
    rw [if_neg (fun h => h.1 rfl), if_neg hne, if_neg (not_not.mpr rfl)]
    cases rest with
    | nil => rfl
    | cons d rest =>
      have hd : ¬ d = quote := fun h => hrest (by rw [h]; rfl)
      dsimp only
      rw [if_neg hd]
      rfl
  | cons c cell ih =>
    have hsize' : decoded + 1 + cell.length ≤ maxFieldBytes := by
      rw [length_cons] at hsize
      omega
    have hcount : countQuotedByte maxFieldBytes offset decoded = .ok (decoded + 1) :=
      if_neg (by omega)
    have hscan := fun offset => ih (fun h => hcr (mem_cons_of_mem c h)) offset (decoded + 1) hsize'
    have htotal : decoded + 1 + cell.length = decoded + (c :: cell).length := by
      rw [length_cons]
      omega
    by_cases hc : c = quote
    · have hne : ¬ quote = cr := by decide
      rw [hc, doubleQuotes_quote, cons_append, cons_append, scanQuotedCsvCell.eq_def]
      dsimp only
      rw [if_neg (fun h => h.1 rfl), if_neg hne, if_neg (not_not.mpr rfl), if_pos rfl, hcount,
        ok_bind, hscan, htotal, hc]
      rfl
    · have hne : ¬ c = cr := fun h => hcr (h ▸ mem_cons_self)
      rw [doubleQuotes_cons hc, cons_append, scanQuotedCsvCell.eq_def]
      dsimp only
      rw [if_neg (fun h => h.1 rfl), if_neg hne, if_pos hc, hcount, ok_bind, hscan, htotal]
      rfl

/-- **Undoing the doubled quotes gives the cell.** -/
theorem decodeQuotedCsvCell_doubleQuotes (hcr : cr ∉ cell) :
    decodeQuotedCsvCell 0 (doubleQuotes cell) = cell := by
  induction cell with
  | nil => rfl
  | cons c cell ih =>
    have ih := ih fun h => hcr (mem_cons_of_mem c h)
    by_cases hc : c = quote
    · rw [hc, doubleQuotes_quote, decodeQuotedCsvCell, if_neg (fun h => h.1 rfl),
        if_neg (by decide), if_pos ⟨rfl, rfl⟩, ih]
    · have hne : ¬ c = cr := fun h => hcr (h ▸ mem_cons_self)
      rw [doubleQuotes_cons hc]
      cases hrest : doubleQuotes cell with
      | nil =>
        rw [hrest] at ih
        rw [decodeQuotedCsvCell, if_neg hne, ← ih]
        rfl
      | cons d rest =>
        rw [hrest] at ih
        rw [decodeQuotedCsvCell, if_neg (fun h => h.1 rfl), if_neg hne,
          if_neg (fun h => hc h.1), ih]

theorem parseQuotedCsvCell_quoted (start maxFieldBytes : Nat) (hcr : cr ∉ cell)
    (hrest : rest.head? ≠ some quote) (hsize : cell.length ≤ maxFieldBytes) :
    parseQuotedCsvCell start maxFieldBytes 0 (doubleQuotes cell ++ quote :: rest) =
      .ok (cell, ⟨cell.length, doubleQuotes cell, rest⟩) := by
  have hscan := scanQuotedCsvCell_doubleQuotes start maxFieldBytes hcr hrest (start + 1) 0
    (by omega)
  rw [parseQuotedCsvCell, hscan, ok_bind, decodeQuotedCsvCell_doubleQuotes hcr, Nat.zero_add]
  split
  · rename_i hempty
    rw [eq_nil_of_length_eq_zero hempty]
  · rfl

/-! ### The loop -/

variable {texts cells : List Bytes}

theorem getLast?_intercalate {last : UInt8} (h : ∀ t ∈ texts, t ≠ [] ∧ t.getLast? ≠ some last) :
    (intercalate [delimiter] texts).getLast? ≠ some last := by
  induction texts with
  | nil => simp [intercalate]
  | cons t texts ih =>
    obtain ⟨⟨-, hlast⟩, htexts⟩ := forall_mem_cons.mp h
    cases texts with
    | nil => rwa [intercalate_singleton]
    | cons u texts =>
      have hu : intercalate [delimiter] (u :: texts) ≠ [] := by
        obtain ⟨b, u', rfl⟩ := exists_cons_of_ne_nil (htexts u mem_cons_self).1
        cases texts <;> simp
      rw [intercalate_cons_cons, getLast?_append_of_ne_nil _ hu]
      exact ih htexts

section Loop

variable {limits : CsvCellLimits} {delimiter : UInt8} {charged size : Nat} {out : List Bytes}

/-- One round of the loop on a quoted cell. -/
theorem parseCsvLoop_quote (hq : quote ≠ delimiter) (out : List Bytes) (charged offset : Nat)
    (rest : Bytes) :
    parseCsvLoop limits delimiter 0 out charged offset (quote :: rest) = (do
      let (value, scan) ← parseQuotedCsvCell offset limits.maxFieldBytes 0 rest
      let charged ← chargeDecoded limits charged value.length offset
      let out ← appendCsvCell out value
      let (offset, next) ←
        advanceAfterQuotedCsvCell delimiter (offset + scan.body.length + 2) scan.rest
      parseCsvLoop limits delimiter 0 out charged offset next) := by
  rw [parseCsvLoop]
  rw [if_neg hq, if_pos rfl]
  split
  · rename_i h
    rw [h]
    rfl
  · rename_i h
    rw [h, ok_bind]
    congr 1
    funext charged
    congr 1
    funext out
    split
    · rename_i h'
      rw [h']
      rfl
    · rename_i h'
      rw [h', ok_bind]

/-- One round of the loop on an unquoted cell. -/
theorem parseCsvLoop_unquoted (hd : c ≠ delimiter) (hq : c ≠ quote) (out : List Bytes)
    (charged offset : Nat) (rest : Bytes) :
    parseCsvLoop limits delimiter 0 out charged offset (c :: rest) = (do
      let (cell, next) ← scanUnquotedCsvCell delimiter (offset + 1) rest
      let charged ← chargeDecoded limits charged (trimCsvCell (c :: cell)).length offset
      let out ← appendCsvCell out (trimCsvCell (c :: cell))
      parseCsvLoop limits delimiter 0 out charged (offset + (c :: cell).length + 1) next.tail) := by
  rw [parseCsvLoop]
  rw [if_neg hd, if_neg hq]
  split
  · rename_i h
    rw [h]
    rfl
  · rename_i h
    rw [h, ok_bind]

/-- There is room for one more cell of this size. -/
structure CellFits (limits : CsvCellLimits) (count charged size : Nat) : Prop where
  count_lt : count < maxCsvCellsPerRecord
  field : size ≤ limits.maxFieldBytes
  record : charged + size ≤ limits.maxDecodedRecordBytes

theorem CellFits.charge {count : Nat} (h : CellFits limits count charged size) (offset : Nat) :
    chargeDecoded limits charged size offset = .ok (charged + size) := by
  obtain ⟨-, hfield, hrecord⟩ := h
  rw [chargeDecoded, if_neg (by omega), if_neg (by omega)]

theorem CellFits.append (h : CellFits limits out.length charged size) (value : Bytes) :
    appendCsvCell out value = .ok (out ++ [value]) :=
  if_neg (Nat.not_le.mpr h.count_lt)

/-- **A text is read as a cell**: the loop takes it, with the delimiter after it if
there is one, and goes on with the cell. -/
structure ReadsAs (limits : CsvCellLimits) (delimiter : UInt8) (text value : Bytes) : Prop where
  last : ∀ {out : List Bytes} {charged : Nat} (offset : Nat),
    CellFits limits out.length charged value.length →
    parseCsvLoop limits delimiter 0 out charged offset text = .ok (out ++ [value])
  next : ∀ {out : List Bytes} {charged : Nat} (offset : Nat) (rest : Bytes),
    CellFits limits out.length charged value.length → ∃ offset',
      parseCsvLoop limits delimiter 0 out charged offset (text ++ delimiter :: rest) =
        parseCsvLoop limits delimiter 0 (out ++ [value]) (charged + value.length) offset' rest

theorem parseCsvLoop_quoteCsvCell (hq : quote ≠ delimiter) {cell : Bytes} (hcr : cr ∉ cell)
    (rest : Bytes) (offset : Nat) (hrest : rest.head? ≠ some quote) {out : List Bytes}
    {charged : Nat}
    (hfits : CellFits limits out.length charged cell.length) :
    parseCsvLoop limits delimiter 0 out charged offset (quoteCsvCell cell ++ rest) = (do
      let (offset, next) ←
        advanceAfterQuotedCsvCell delimiter (offset + (doubleQuotes cell).length + 2) rest
      parseCsvLoop limits delimiter 0 (out ++ [cell]) (charged + cell.length) offset next) := by
  have htext : quoteCsvCell cell ++ rest = quote :: (doubleQuotes cell ++ quote :: rest) := by
    simp [quoteCsvCell]
  rw [htext, parseCsvLoop_quote hq, parseQuotedCsvCell_quoted _ _ hcr hrest hfits.field]
  simp only [ok_bind, hfits.charge, hfits.append]

theorem parseCsvLoop_quoteCsvCell_last (hq : quote ≠ delimiter) (hcr : cr ∉ cell) (offset : Nat)
    (hfits : CellFits limits out.length charged cell.length) :
    parseCsvLoop limits delimiter 0 out charged offset (quoteCsvCell cell) =
    .ok (out ++ [cell]) := by
  have h := parseCsvLoop_quoteCsvCell hq hcr [] offset (by simp) hfits
  rw [append_nil] at h
  rw [h, advanceAfterQuotedCsvCell, ok_bind]
  show parseCsvLoop limits delimiter 0 _ _ _ [] = _
  rw [parseCsvLoop]

theorem readsAs_quoteCsvCell (hq : quote ≠ delimiter) (hspace : delimiter ≠ space)
    (htab : delimiter ≠ tab) (hcr : cr ∉ cell) :
    ReadsAs limits delimiter (quoteCsvCell cell) cell where
  last offset hfits := parseCsvLoop_quoteCsvCell_last hq hcr offset hfits
  next {out charged} offset rest hfits := by
    have hhead : (delimiter :: rest).head? ≠ some quote := fun h => hq (Option.some.inj h).symm
    have hblank : ¬ (delimiter = space ∨ delimiter = tab) := not_or.mpr ⟨hspace, htab⟩
    rw [parseCsvLoop_quoteCsvCell hq hcr _ offset hhead hfits, advanceAfterQuotedCsvCell,
      if_neg hblank,
      if_neg (not_not.mpr rfl), ok_bind]
    exact ⟨_, rfl⟩

/-- The cells of a record are within the limits. -/
structure RecordFits (limits : CsvCellLimits) (cells : List Bytes) : Prop where
  count : cells.length ≤ maxCsvCellsPerRecord
  field : ∀ c ∈ cells, c.length ≤ limits.maxFieldBytes
  record : (cells.map List.length).sum ≤ limits.maxDecodedRecordBytes

/-- **A row of texts with delimiters between them is read as the row of cells.** -/
theorem parseCsvLoop_intercalate {cells : List (Bytes × Bytes)} (hne : cells ≠ [])
    (hreads : ∀ p ∈ cells, ReadsAs limits delimiter p.1 p.2) {out : List Bytes} {charged : Nat}
    (offset : Nat) (hcount : out.length + cells.length ≤ maxCsvCellsPerRecord)
    (hfield : ∀ p ∈ cells, p.2.length ≤ limits.maxFieldBytes)
    (hrecord : charged + (cells.map fun p => p.2.length).sum ≤ limits.maxDecodedRecordBytes) :
    parseCsvLoop limits delimiter 0 out charged offset
        (intercalate [delimiter] (cells.map Prod.fst)) =
      .ok (out ++ cells.map Prod.snd) := by
  induction cells generalizing out charged offset with
  | nil => exact absurd rfl hne
  | cons p cells ih =>
    obtain ⟨hp, hcells⟩ := forall_mem_cons.mp hreads
    obtain ⟨hpfield, hfield⟩ := forall_mem_cons.mp hfield
    simp only [map_cons, sum_cons, length_cons] at hcount hrecord
    have hfits : CellFits limits out.length charged p.2.length := ⟨by omega, hpfield, by omega⟩
    cases cells with
    | nil => simpa using hp.last offset hfits
    | cons q cells =>
      obtain ⟨offset', hnext⟩ := hp.next offset
        (intercalate [delimiter] ((q :: cells).map Prod.fst)) hfits
      have hcount' : (out ++ [p.2]).length + (q :: cells).length ≤ maxCsvCellsPerRecord := by
        simp only [length_append, length_cons, length_nil] at hcount ⊢
        omega
      rw [map_cons, map_cons, intercalate_cons_cons, ← map_cons, append_assoc,
        singleton_append, hnext, ih (cons_ne_nil _ _) hcells offset' hcount' hfield (by omega)]
      simp

/-- What the parser does besides the loop does not show: the bytes are valid, and
the record does not end with a delimiter. -/
theorem parseCsvCells_of_loop {row : Bytes} (hvalid : ValidUtf8 row) (baseOffset : Nat)
    (hlast : row.getLast? ≠ some (csvDelim delimiter))
    (hloop : parseCsvLoop limits (csvDelim delimiter) escapeChar [] 0 baseOffset row = .ok cells) :
    parseCsvCells limits delimiter escapeChar baseOffset row = .ok cells := by
  rw [parseCsvCells, validateCsvUtf8_ok hvalid, ok_bind, hloop, ok_bind, if_neg hlast]

/-- **A row of texts is read as the row of cells.** -/
theorem parseCsvCells_intercalate (hascii : delimiter < 0x80) {cells : List (Bytes × Bytes)}
    (hne : cells ≠ []) (hreads : ∀ p ∈ cells, ReadsAs limits (csvDelim delimiter) p.1 p.2)
    (hvalid : ∀ p ∈ cells, ValidUtf8 p.1)
    (hlast : ∀ p ∈ cells, p.1 ≠ [] ∧ p.1.getLast? ≠ some (csvDelim delimiter))
    (hfits : RecordFits limits (cells.map Prod.snd)) (baseOffset : Nat) :
    parseCsvCells limits delimiter 0 baseOffset
        (intercalate [csvDelim delimiter] (cells.map Prod.fst)) =
      .ok (cells.map Prod.snd) := by
  have hdelim : csvDelim delimiter < 0x80 := by
    rw [csvDelim]
    split
    · decide
    · exact hascii
  apply parseCsvCells_of_loop
  · apply ValidUtf8.intercalate (.cons (.ascii hdelim) .nil)
    simpa using fun a b h => hvalid (a, b) h
  · apply getLast?_intercalate
    simpa using fun a b h => hlast (a, b) h
  · have hcount := hfits.count
    have hrecord := hfits.record
    rw [length_map] at hcount
    rw [map_map] at hrecord
    change (cells.map fun p => p.2.length).sum ≤ _ at hrecord
    have hloop := @parseCsvLoop_intercalate limits _ cells hne hreads [] 0 baseOffset
      (by simpa using hcount) (fun p hp => hfits.field p.2 (mem_map_of_mem hp))
        (by simpa using hrecord)
    rwa [nil_append] at hloop

end Loop

/-! ### Rows of quoted cells -/

theorem validUtf8_quoteCsvCell (h : ValidUtf8 cell) : ValidUtf8 (quoteCsvCell cell) := by
  have hquote : Utf8Char [quote] := .ascii (by decide)
  have hdouble : ValidUtf8 (doubleQuotes cell) := by
    apply h.flatMap
    · intro a ha b hb
      split at hb
      · rw [mem_pair] at hb
        rcases hb with rfl | rfl <;> decide
      · rwa [mem_singleton.mp hb]
    · intro a ha
      have hne : a ≠ quote := by
        rintro rfl
        exact absurd ha (by decide)
      rw [if_neg hne]
  have hopen : ValidUtf8 (quote :: doubleQuotes cell) := .cons hquote hdouble
  exact hopen.append (.cons hquote .nil)

theorem getLast?_quoteCsvCell (cell : Bytes) : (quoteCsvCell cell).getLast? = some quote := by
  rw [quoteCsvCell, getLast?_append_of_ne_nil _ (cons_ne_nil _ _)]
  rfl

/-- A delimiter for which a row of several quoted cells is refused: a blank is
skipped after the closing quote before the delimiter is looked for, and NUL is read
as the default delimiter. -/
def LostDelimiter (delimiter : UInt8) : Prop := delimiter = space ∨ delimiter = tab ∨ delimiter = 0

instance (delimiter : UInt8) : Decidable (LostDelimiter delimiter) :=
  inferInstanceAs (Decidable (delimiter = space ∨ delimiter = tab ∨ delimiter = 0))

theorem advanceAfterQuotedCsvCell_lost (h : LostDelimiter delimiter) (offset : Nat) (rest : Bytes) :
    ∃ place,
    advanceAfterQuotedCsvCell (csvDelim delimiter) offset (delimiter :: quote :: rest) =
      .error (.afterClosingQuote place) := by
  rcases h with rfl | rfl | rfl
  · exact ⟨offset + 1, rfl⟩
  · exact ⟨offset + 1, rfl⟩
  · exact ⟨offset, rfl⟩

theorem csvDelim_ne_quote (h : delimiter ≠ quote) : quote ≠ csvDelim delimiter := by
  rw [csvDelim]
  split
  · decide
  · exact h.symm

theorem csvDelim_of_not_lost (h : ¬ LostDelimiter delimiter) : csvDelim delimiter = delimiter :=
  if_neg fun h0 => h (.inr (.inr h0))

section Rows

variable {limits : CsvCellLimits} {delimiter : UInt8} {cells : List Bytes}

theorem RecordFits.first {c : Bytes} (h : RecordFits limits (c :: cells)) :
    CellFits limits 0 0 c.length where
  count_lt := lt_of_lt_of_le (Nat.succ_pos cells.length) h.count
  field := h.field c mem_cons_self
  record := by
    have hsum := h.record
    rw [map_cons, sum_cons] at hsum
    omega

/-- With a lost delimiter a row of two cells or more is refused after its first cell. -/
theorem parseCsvCells_lost (hascii : delimiter < 0x80) (hlost : LostDelimiter delimiter)
    {c d : Bytes} (hvalid : ∀ e ∈ c :: d :: cells, ValidUtf8 e) (hcr : cr ∉ c)
    (hfits : RecordFits limits (c :: d :: cells)) (baseOffset : Nat) : ∃ place,
    parseCsvCells limits delimiter 0 baseOffset
        (intercalate [delimiter] ((c :: d :: cells).map quoteCsvCell)) =
      .error (.afterClosingQuote place) := by
  have hq : delimiter ≠ quote := by
    rcases hlost with rfl | rfl | rfl <;> decide
  have hrow : ValidUtf8 (intercalate [delimiter] ((c :: d :: cells).map quoteCsvCell)) := by
    apply ValidUtf8.intercalate (.cons (.ascii hascii) .nil)
    intro t ht
    obtain ⟨e, he, rfl⟩ := mem_map.mp ht
    exact validUtf8_quoteCsvCell (hvalid e he)
  obtain ⟨rest, hrest⟩ : ∃ rest, intercalate [delimiter] ((d :: cells).map quoteCsvCell) =
      quote :: rest := by
    cases cells <;> simp [quoteCsvCell]
  have htext : intercalate [delimiter] ((c :: d :: cells).map quoteCsvCell) =
      quoteCsvCell c ++ delimiter :: quote :: rest := by
    rw [← hrest]
    simp
  have hhead : (delimiter :: quote :: rest).head? ≠ some quote := fun h => hq (Option.some.inj h)
  have hloop := @parseCsvLoop_quoteCsvCell limits _ (csvDelim_ne_quote hq) c hcr _ baseOffset hhead
    [] 0 hfits.first
  obtain ⟨place, hplace⟩ := advanceAfterQuotedCsvCell_lost hlost
    (baseOffset + (doubleQuotes c).length + 2) rest
  rw [hplace] at hloop
  refine ⟨place, ?_⟩
  rw [parseCsvCells, validateCsvUtf8_ok hrow, ok_bind, htext, hloop]
  rfl

/-- **Quoted cells are read exactly, except where the delimiter is lost.**  One cell
has no delimiter after it. -/
theorem parseCsvCells_quoted_iff (hascii : delimiter < 0x80)
    (_haccepted : checkCsvOptions [delimiter] [] = .ok ()) (hquote : delimiter ≠ quote)
    (_hcr : delimiter ≠ cr) (_hlf : delimiter ≠ lf) (hne : cells ≠ [])
    (hvalid : ∀ c ∈ cells, ValidUtf8 c) (hcells : ∀ c ∈ cells, cr ∉ c)
    (hfits : RecordFits limits cells) (baseOffset : Nat) :
    parseCsvCells limits delimiter 0 baseOffset
        (List.intercalate [delimiter] (cells.map quoteCsvCell)) = .ok cells ↔
      cells.length = 1 ∨ ¬ LostDelimiter delimiter := by
  have hq := csvDelim_ne_quote hquote
  constructor
  · intro hread
    by_contra hbad
    obtain ⟨hlen, hlost⟩ := not_or.mp hbad
    obtain ⟨c, d, cells, rfl⟩ : ∃ c d rest, cells = c :: d :: rest := by
      match cells, hne, hlen with
      | c :: d :: rest, _, _ => exact ⟨c, d, rest, rfl⟩
      | [_], _, hlen => exact absurd rfl hlen
    obtain ⟨place, herror⟩ := parseCsvCells_lost hascii (not_not.mp hlost) hvalid
      (hcells c mem_cons_self) hfits baseOffset
    rw [herror] at hread
    cases hread
  · rintro (hone | hkept)
    · obtain ⟨c, rfl⟩ := length_eq_one_iff.mp hone
      rw [map_singleton, intercalate_singleton]
      apply parseCsvCells_of_loop (validUtf8_quoteCsvCell (hvalid c mem_cons_self))
      · rw [getLast?_quoteCsvCell]
        exact fun h => hq (Option.some.inj h)
      · exact parseCsvLoop_quoteCsvCell_last hq (hcells c mem_cons_self) baseOffset hfits.first
    · have hdelim := csvDelim_of_not_lost hkept
      have hpairs := @parseCsvCells_intercalate limits delimiter hascii
        (cells.map fun c => (quoteCsvCell c, c)) (by simpa using hne)
      simp only [map_map, Function.comp_def, forall_mem_map, map_id', hdelim] at hpairs
      apply hpairs
      · intro c hc
        exact readsAs_quoteCsvCell hquote.symm (fun h => hkept (.inl h))
          (fun h => hkept (.inr (.inl h))) (hcells c hc)
      · exact fun c hc => validUtf8_quoteCsvCell (hvalid c hc)
      · intro c _
        refine ⟨cons_ne_nil _ _, ?_⟩
        rw [getLast?_quoteCsvCell]
        exact fun h => hquote (Option.some.inj h).symm
      · exact hfits

end Rows

theorem recordFits_small (h : cells.length ≤ 8) (hc : ∀ c ∈ cells, c.length ≤ 8) :
    RecordFits {} cells where
  count := h.trans (by decide)
  field c hmem := (hc c hmem).trans (by decide)
  record := by
    have hsum := sum_le_card_nsmul (cells.map length) 8
      (by simpa using fun c hmem => hc c hmem)
    rw [length_map, smul_eq_mul] at hsum
    exact hsum.trans ((Nat.mul_le_mul_right 8 h).trans (by decide))

/-- A comma between quoted cells. -/
theorem parseCsvCells_quoted_comma :
    parseCsvCells {} comma 0 0 (bytes "\"a\",\"b\"") = .ok [bytes "a", bytes "b"] := by
  have hvalid : ∀ c ∈ [bytes "a", bytes "b"], ValidUtf8 c := by
    simpa using ⟨validUtf8_bytes (by decide), validUtf8_bytes (by decide)⟩
  have hread := @parseCsvCells_quoted_iff {} comma [bytes "a", bytes "b"]
    (by decide) rfl (by decide)
    (by decide) (by decide) (by decide) hvalid (by decide)
    (recordFits_small (by decide) (by decide)) 0
  exact hread.mpr (.inr (by decide))

/-- A space between quoted cells: it is skipped as a blank, and the quote that
follows is not the delimiter. -/
theorem parseCsvCells_quoted_space :
    checkCsvOptions [space] [] = .ok () ∧
      parseCsvCells {} space 0 0 (bytes "\"a\" \"b\"") = .error (.afterClosingQuote 4) := by
  have htext : bytes "\"a\" \"b\"" =
      quoteCsvCell (bytes "a") ++ space :: quote :: bytes "b\"" := by decide
  have hvalid : validateCsvUtf8 0 (bytes "\"a\" \"b\"") = .ok () :=
    validateCsvUtf8_ok (validUtf8_bytes (by decide)) 0
  have hfits : CellFits {} 0 0 (bytes "a").length := ⟨by decide, by decide, by decide⟩
  have hloop := @parseCsvLoop_quoteCsvCell {} space (by decide) (bytes "a") (by decide)
    (space :: quote :: bytes "b\"") 0 (by decide) [] 0 hfits
  refine ⟨rfl, ?_⟩
  rw [parseCsvCells, hvalid, ok_bind, htext]
  show (parseCsvLoop {} space 0 [] 0 0 _ >>= _) = _
  rw [hloop]
  rfl

end SchemaSanitizer
