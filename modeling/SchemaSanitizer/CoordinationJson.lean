/-
SchemaSanitizer/CoordinationJson.lean

The JSON of the coordination documents, `json.dumps` with sorted keys and compact
separators, and a reader of what it writes.

Strings are written with the ASCII escapes of `json`: quote, backslash and the control
characters with a short escape, every other character outside the printable ASCII range as
one `\u` escape or as a surrogate pair.  The reader expects the keys in their sorted order
and no blanks, which `json.loads` does not need; of other texts it says nothing.

Main results: `headerCodec` and `memoryCodec`, the two parameters of the journal and of the
host that shares it.
-/
import SchemaSanitizer.Journal
import SchemaSanitizer.MemoryRegistry
import SchemaSanitizer.Lib.Readers

namespace SchemaSanitizer

open List Lib

variable {α β : Type} {later : Bytes} {b : β}

/-- A computation on the bytes that are left. -/
abbrev JsonReader := Lib.Reader UInt8

/-- `json.JSONDecodeError`, without its position. -/
def jsonDecodeError : String := "json.JSONDecodeError"

/-! ### Fixed texts and numbers -/

variable {stop : UInt8}

/-- A text that must come next. -/
def expectText : Bytes → JsonReader Unit
  | [] => pure ()
  | c :: text => do
    let x ← readLetter jsonDecodeError
    require (x = c) jsonDecodeError
    expectText text

theorem reads_text : ∀ text : Bytes, Reads (expectText text) text ()
  | [] => fun _ => rfl
  | _ :: text => .next (.require rfl (reads_text text))

/-- `int.__repr__`. -/
def intText : Int → Bytes
  | .ofNat n => decimal n
  | .negSucc n => byte '-' :: decimal (n + 1)

/-- The digits before a byte that ends them, and that byte. -/
def readDigits (stop : UInt8) : JsonReader Nat := fun text =>
  let digits := text.takeWhile isDigit
  if (text.drop digits.length).head? = some stop then
    .ok (digitsValue digits, text.drop (digits.length + 1))
  else .error jsonDecodeError

/-- A number before a byte that ends it, and that byte. -/
def readInt (stop : UInt8) : JsonReader Int := fun text =>
  if text.head? = some (byte '-') then ((fun n : Nat => -(n : Int)) <$> readDigits stop) text.tail
  else ((fun n : Nat => (n : Int)) <$> readDigits stop) text

theorem reads_digits (hstop : isDigit stop = false) (n : Nat) :
    Reads (readDigits stop) (decimal n ++ [stop]) n := by
  intro rest
  have hdigits : (decimal n ++ stop :: rest).takeWhile isDigit = decimal n :=
    takeWhile_digits (fun c hc => decimal_isDigit hc) (by rintro c ⟨⟩; exact hstop)
  rw [append_assoc, singleton_append]
  show readDigits stop _ = _
  rw [readDigits, hdigits]
  simp [digitsValue_decimal]

/-- A printed integer is read back up to the byte that ends it. -/
theorem reads_int (hstop : isDigit stop = false) (n : Int) :
    Reads (readInt stop) (intText n ++ [stop]) n := by
  cases n with
  | ofNat n =>
    intro rest
    have hhead : (intText (.ofNat n) ++ [stop] ++ rest).head? ≠ some (byte '-') := by
      rw [append_assoc]
      show (decimal n ++ _).head? ≠ _
      rw [head?_append_of_ne_nil _ (decimal_ne_nil n)]
      exact head?_digits_ne (fun c hc => decimal_isDigit hc) (by decide)
    show readInt stop _ = _
    rw [readInt, if_neg hhead]
    exact (reads_digits hstop n).map (fun n : Nat => (n : Int)) rest
  | negSucc n =>
    intro rest
    exact (reads_digits hstop (n + 1)).map (fun n : Nat => -(n : Int)) rest

/-! ### Strings -/

/-- A digit of a number in base sixteen. -/
def unitDigit (n : Nat) : UInt8 := UInt8.ofNat (if n < 10 then 48 + n else 87 + n)

/-- The value of such a digit. -/
def unitValue (c : UInt8) : Nat := if c < 58 then c.toNat - 48 else c.toNat - 87

/-- The escape of a code unit of 16 bits. -/
def escapeUnit (n : Nat) : Bytes :=
  [byte '\\', byte 'u', unitDigit (n / 4096), unitDigit (n / 256 % 16), unitDigit (n / 16 % 16),
    unitDigit (n % 16)]

/-- One character of a string. -/
def escapeChar (c : Char) : Bytes :=
  if c = '"' ∨ c = '\\' then [byte '\\', byte c]
  else if c = '\n' then bytes "\\n"
  else if c = '\r' then bytes "\\r"
  else if c = '\t' then bytes "\\t"
  else if c.toNat = 12 then bytes "\\f"
  else if c.toNat = 8 then bytes "\\b"
  else if 32 ≤ c.toNat ∧ c.toNat < 127 then [byte c]
  else if c.toNat < 65536 then escapeUnit c.toNat
  else
    escapeUnit (0xD800 + (c.toNat - 65536) / 1024) ++ escapeUnit (0xDC00 + (c.toNat - 65536) % 1024)

/-- A string. -/
def stringText (s : List Char) : Bytes := byte '"' :: (s.flatMap escapeChar ++ [byte '"'])

/-- The four digits of a code unit. -/
def readUnit : JsonReader Nat := do
  let a ← readLetter jsonDecodeError
  let b ← readLetter jsonDecodeError
  let c ← readLetter jsonDecodeError
  let d ← readLetter jsonDecodeError
  return unitValue a * 4096 + unitValue b * 256 + unitValue c * 16 + unitValue d

/-- What comes after `\\u`: a code unit, or a surrogate pair. -/
def readUnicode : JsonReader Char := do
  let unit ← readUnit
  if 0xD800 ≤ unit ∧ unit < 0xDC00 then do
    expectText (bytes "\\u")
    let low ← readUnit
    return Char.ofNat (65536 + (unit - 0xD800) * 1024 + (low - 0xDC00))
  else return Char.ofNat unit

/-- What comes after a backslash. -/
def readEscape : JsonReader Char := do
  let c ← readLetter jsonDecodeError
  if c = byte 'n' then return '\n'
  else if c = byte 'r' then return '\r'
  else if c = byte 't' then return '\t'
  else if c = byte 'f' then return Char.ofNat 12
  else if c = byte 'b' then return Char.ofNat 8
  else if c = byte 'u' then readUnicode
  else return Char.ofNat c.toNat

/-- The next character of a string; nothing at its end. -/
def readChar : JsonReader (Option Char) := do
  let c ← readLetter jsonDecodeError
  if c = byte '"' then return none
  else if c = byte '\\' then some <$> readEscape
  else return some (Char.ofNat c.toNat)

/-- The characters of a string with less than so many of them. -/
def readChars : Nat → JsonReader (List Char)
  | 0 => throw jsonDecodeError
  | n + 1 => do
    match ← readChar with
    | none => return []
    | some c => (c :: ·) <$> readChars n

/-- A string. -/
def readString : JsonReader (List Char) := do
  expectText (bytes "\"")
  readChars (← get).length

theorem unitValue_unitDigit {n : Nat} (h : n < 16) : unitValue (unitDigit n) = n := by
  revert n
  decide

theorem reads_unit {n : Nat} (h : n < 65536) :
    Reads readUnit ((escapeUnit n).drop 2) n := by
  have hvalue : unitValue (unitDigit (n / 4096)) * 4096 +
    unitValue (unitDigit (n / 256 % 16)) * 256 +
      unitValue (unitDigit (n / 16 % 16)) * 16 + unitValue (unitDigit (n % 16)) = n := by
    rw [unitValue_unitDigit (by omega), unitValue_unitDigit (by omega),
      unitValue_unitDigit (by omega),
      unitValue_unitDigit (by omega)]
    omega
  intro rest
  exact congrArg (fun n => Except.ok (n, rest)) hvalue

theorem escapeChar_ascii {n : Nat} (h : n < 128) :
    Reads readChar (escapeChar (Char.ofNat n)) (some (Char.ofNat n)) ∧
      10 ∉ escapeChar (Char.ofNat n) := by
  interval_cases n <;> exact ⟨fun _ => rfl, by decide⟩

/-- Beyond ASCII a character is one code unit or a surrogate pair. -/
theorem escapeChar_unicode {c : Char} (h : 128 ≤ c.toNat) :
    (c.toNat < 65536 ∧ (c.toNat < 0xD800 ∨ 0xDFFF < c.toNat) ∧
      escapeChar c = escapeUnit c.toNat) ∨
    ∃ high < 1024, ∃ low < 1024, 65536 + high * 1024 + low = c.toNat ∧
      escapeChar c = escapeUnit (0xD800 + high) ++ escapeUnit (0xDC00 + low) := by
  have hne : ∀ n < 128, c ≠ Char.ofNat n := by
    rintro n hn rfl
    rw [Char.toNat_ofNat] at h
    split at h <;> omega
  have hvalid : c.toNat < 0xD800 ∨ 0xDFFF < c.toNat ∧ c.toNat < 0x110000 := c.valid
  have hquote : ¬ (c = '"' ∨ c = '\\') := not_or.mpr ⟨hne 34 (by decide), hne 92 (by decide)⟩
  rw [escapeChar, if_neg hquote, if_neg (hne 10 (by decide)), if_neg (hne 13 (by decide)),
    if_neg (hne 9 (by decide)), if_neg (by omega), if_neg (by omega), if_neg (by omega)]
  split
  · exact .inl ⟨by omega, by omega, rfl⟩
  · exact .inr ⟨_, by omega, _, by omega, by omega, rfl⟩

theorem reads_unicode {text : Bytes} {c : Char} (h : Reads readUnicode text c) :
    Reads readChar (bytes "\\u" ++ text) (some c) :=
  fun rest => h.map some rest

theorem escapeUnit_eq (n : Nat) : escapeUnit n = bytes "\\u" ++ (escapeUnit n).drop 2 := rfl

theorem reads_bmp {c : Char} (hunit : c.toNat < 65536)
    (hvalid : c.toNat < 0xD800 ∨ 0xDFFF < c.toNat) :
    Reads readUnicode ((escapeUnit c.toNat).drop 2) c := by
  rw [← append_nil (drop 2 _)]
  refine (reads_unit hunit).bind ?_
  rw [if_neg (by omega), Char.ofNat_toNat]
  exact fun _ => rfl

theorem reads_surrogates {c : Char} {high low : Nat} (hhigh : high < 1024) (hlow : low < 1024)
    (hc : 65536 + high * 1024 + low = c.toNat) :
    Reads readUnicode ((escapeUnit (0xD800 + high)).drop 2 ++ escapeUnit (0xDC00 + low)) c := by
  refine (reads_unit (by omega)).bind ?_
  rw [if_pos (by omega), escapeUnit_eq]
  refine (reads_text (bytes "\\u")).bind ?_
  rw [← append_nil (drop 2 _)]
  refine (reads_unit (by omega)).bind fun rest => ?_
  rw [Nat.add_sub_cancel_left, Nat.add_sub_cancel_left, hc, Char.ofNat_toNat]
  rfl

theorem reads_char (c : Char) : Reads readChar (escapeChar c) (some c) := by
  by_cases hascii : c.toNat < 128
  · rw [← Char.ofNat_toNat c]
    exact (escapeChar_ascii hascii).1
  rcases escapeChar_unicode (not_lt.mp hascii) with
    ⟨hunit, hvalid, heq⟩ | ⟨high, hhigh, low, hlow, hc, heq⟩
  · rw [heq, escapeUnit_eq]
    exact reads_unicode (reads_bmp hunit hvalid)
  · rw [heq, escapeUnit_eq, append_assoc]
    exact reads_unicode (reads_surrogates hhigh hlow hc)

theorem reads_chars : ∀ {s : List Char} {n : Nat}, s.length < n →
    Reads (readChars n) (s.flatMap escapeChar ++ [byte '"']) s
  | [], _ + 1, _ => fun _ => rfl
  | c :: s, n + 1, h => by
    rw [flatMap_cons, append_assoc]
    exact (reads_char c).bind ((reads_chars (Nat.lt_of_succ_lt_succ h)).map (c :: ·))

theorem length_le_flatMap_escapeChar : ∀ s : List Char, s.length ≤ (s.flatMap escapeChar).length
  | [] => le_rfl
  | c :: s => by
    have hne : escapeChar c ≠ [] := by
      intro hnil
      have hread := reads_char c []
      rw [hnil] at hread
      cases hread
    have hpos := length_pos_iff.mpr hne
    have ih := length_le_flatMap_escapeChar s
    rw [flatMap_cons, length_append, length_cons]
    omega

/-- **A string is read back**, whatever its characters. -/
theorem reads_string (s : List Char) : Reads readString (stringText s) s := by
  have hcontent : Reads (do readChars (← get).length) (s.flatMap escapeChar ++ [byte '"']) s := by
    intro rest
    refine reads_chars ?_ rest
    have hle := length_le_flatMap_escapeChar s
    simp only [length_append, length_singleton]
    omega
  exact (reads_text (bytes "\"")).bind hcontent

/-! ### No line breaks -/

theorem newline_notMem_escapeUnit {n : Nat} (h : n < 65536) : 10 ∉ escapeUnit n := by
  have hdigit : ∀ n < 16, 10 ≠ unitDigit n := by decide
  simp only [escapeUnit, mem_cons, not_mem_nil, or_false, not_or]
  exact ⟨by decide, by decide, hdigit _ (by omega), hdigit _ (by omega), hdigit _ (by omega),
    hdigit _ (by omega)⟩

theorem newline_notMem_escapeChar (c : Char) : 10 ∉ escapeChar c := by
  by_cases hascii : c.toNat < 128
  · rw [← Char.ofNat_toNat c]
    exact (escapeChar_ascii hascii).2
  rcases escapeChar_unicode (not_lt.mp hascii) with
    ⟨hunit, -, heq⟩ | ⟨high, hhigh, low, hlow, -, heq⟩
  · rw [heq]
    exact newline_notMem_escapeUnit hunit
  · rw [heq, mem_append, not_or]
    exact ⟨newline_notMem_escapeUnit (by omega), newline_notMem_escapeUnit (by omega)⟩

theorem newline_notMem_stringText (s : List Char) : 10 ∉ stringText s := by
  intro h
  rcases mem_cons.mp h with h | h
  · exact absurd h (by decide)
  · rcases mem_append.mp h with h | h
    · obtain ⟨c, -, hc⟩ := mem_flatMap.mp h
      exact newline_notMem_escapeChar c hc
    · exact absurd (mem_singleton.mp h) (by decide)

theorem newline_notMem_decimal (n : Nat) : 10 ∉ decimal n := by
  intro h
  have hdigit := decimal_isDigit h
  revert hdigit
  decide

theorem newline_notMem_intText : ∀ n : Int, 10 ∉ intText n
  | .ofNat n => newline_notMem_decimal n
  | .negSucc n => by
    intro h
    rcases mem_cons.mp h with h | h
    · exact absurd h (by decide)
    · exact newline_notMem_decimal (n + 1) h

/-! ### The header of a journal -/

/-- A header in compact JSON, with its keys in their order. -/
def headerText (h : JournalHeader) : Bytes :=
  bytes "\x7b\"after_length\":" ++ ((intText h.afterLength ++ bytes ",") ++
  (bytes "\"after_sha256\":" ++ (stringText h.afterSha256.toList ++
  (bytes ",\"before_length\":" ++ ((intText h.beforeLength ++ bytes ",") ++
  (bytes "\"before_sha256\":" ++ (stringText h.beforeSha256.toList ++
  (bytes ",\"phase\":" ++ (stringText h.phase.toList ++
  (bytes ",\"pid\":" ++ ((intText h.pid ++ bytes ",") ++
  (bytes "\"start\":" ++ (stringText h.start ++
  (bytes ",\"version\":" ++ (intText h.version ++ bytes "\x7d")))))))))))))))

/-- The reader of a header. -/
def readHeader : JsonReader JournalHeader := do
  expectText (bytes "\x7b\"after_length\":")
  let afterLength ← readInt (byte ',')
  expectText (bytes "\"after_sha256\":")
  let afterSha256 ← readString
  expectText (bytes ",\"before_length\":")
  let beforeLength ← readInt (byte ',')
  expectText (bytes "\"before_sha256\":")
  let beforeSha256 ← readString
  expectText (bytes ",\"phase\":")
  let phase ← readString
  expectText (bytes ",\"pid\":")
  let pid ← readInt (byte ',')
  expectText (bytes "\"start\":")
  let start ← readString
  expectText (bytes ",\"version\":")
  let version ← readInt 0x7d
  return ⟨version, String.ofList phase, pid, start, beforeLength, afterLength,
    String.ofList beforeSha256, String.ofList afterSha256⟩

theorem reads_header (h : JournalHeader) : Reads readHeader (headerText h) h := by
  have hcomma : isDigit (byte ',') = false := by decide
  have hend : Reads (readInt 0x7d) (intText h.version ++ bytes "\x7d") h.version :=
    reads_int (by decide) h.version
  rw [headerText]
  refine (reads_text _).bind ((reads_int hcomma _).bind ((reads_text _).bind
    ((reads_string _).bind ((reads_text _).bind ((reads_int hcomma _).bind ((reads_text _).bind
    ((reads_string _).bind ((reads_text _).bind ((reads_string _).bind ((reads_text _).bind
    ((reads_int hcomma _).bind ((reads_text _).bind ((reads_string _).bind
    ((reads_text _).bind ?_))))))))))))))
  rw [← append_nil (intText h.version ++ _)]
  refine hend.bind fun rest => ?_
  simp only [String.ofList_toList]
  rfl

/-- **`json` on the headers of journals.** -/
def headerCodec : HeaderCodec where
  dumps := headerText
  loads content :=
    match readHeader.run content with
    | .ok (h, []) => some h
    | _ => none
  loads_dumps h := by
    have hread := reads_header h []
    rw [append_nil] at hread
    rw [hread]
  newline_notMem h := by
    simp only [headerText, mem_append, not_or]
    simp only [newline_notMem_intText, newline_notMem_stringText, not_false_eq_true, true_and]
    decide

/-! ### The document of the reservations -/

/-- Compact JSON of the document.  The keys are sorted, so that a document is read back
in another order. -/
structure MemoryCodec where
  dumps : MemoryRegistry → Bytes
  loads : Bytes → Except String MemoryRegistry
  loads_dumps : ∀ leases, ∃ leases', loads (dumps leases) = .ok leases' ∧
    leases'.entries.Perm leases.entries
  dumps_ne_nil : ∀ leases, dumps leases ≠ []

/-- A process with its record. -/
abbrev MemoryEntry := Sigma fun _ : ProcessId => MemoryRecord

/-- The key of a record, `pid:start`. -/
def ProcessId.text (key : ProcessId) : List Char := (toString key.pid).toList ++ ':' :: key.start

/-- A record with its key.  The time is a `float`, here a whole number of seconds. -/
def entryText (entry : MemoryEntry) : Bytes :=
  stringText entry.1.text ++ (bytes ":\x7b\"pid\":" ++ ((intText entry.1.pid ++ bytes ",") ++
  (bytes "\"reserved\":" ++ ((decimal entry.2.reserved ++ bytes ",") ++
  (bytes "\"start\":" ++ (stringText entry.1.start ++
  (bytes ",\"updated\":" ++ ((decimal entry.2.updated ++ bytes ".") ++ bytes "0\x7d"))))))))

/-- The reader of a record, which checks the key as `_clean_leases` does. -/
def readEntry : JsonReader MemoryEntry := do
  let key ← readString
  expectText (bytes ":\x7b\"pid\":")
  let pid ← readInt (byte ',')
  expectText (bytes "\"reserved\":")
  let reserved ← readDigits (byte ',')
  expectText (bytes "\"start\":")
  let start ← readString
  expectText (bytes ",\"updated\":")
  let updated ← readDigits (byte '.')
  expectText (bytes "0\x7d")
  require (key = ProcessId.text ⟨pid, start⟩) "invalid resident-memory lease identity"
  return ⟨⟨pid, start⟩, reserved, updated⟩

theorem reads_entry (entry : MemoryEntry) : Reads readEntry (entryText entry) entry := by
  obtain ⟨⟨pid, start⟩, reserved, updated⟩ := entry
  have hcomma : isDigit (byte ',') = false := by decide
  have hpoint : isDigit (byte '.') = false := by decide
  rw [entryText, ← append_nil (bytes "0\x7d")]
  exact (reads_string _).bind ((reads_text _).bind ((reads_int hcomma _).bind
    ((reads_text _).bind ((reads_digits hcomma _).bind ((reads_text _).bind
    ((reads_string _).bind ((reads_text _).bind ((reads_digits hpoint _).bind
    ((reads_text _).bind (.require rfl fun _ => rfl))))))))))

/-- The records after the first one. -/
def moreText (entries : List MemoryEntry) : Bytes :=
  entries.flatMap (fun entry => byte ',' :: entryText entry) ++ bytes "\x7d"

/-- The reader of these, at most `n` of them. -/
def readMore : (n : Nat) → JsonReader (List MemoryEntry)
  | 0 => throw jsonDecodeError
  | n + 1 => do
    let x ← readLetter jsonDecodeError
    if x = byte ',' then
      let entry ← readEntry
      (entry :: ·) <$> readMore n
    else do
      require (x = 0x7d) jsonDecodeError
      return []

theorem reads_more : ∀ {entries : List MemoryEntry} {n : Nat}, entries.length < n →
    Reads (readMore n) (moreText entries) entries
  | [], _ + 1, _ => fun _ => rfl
  | entry :: rest, n + 1, h => by
    rw [moreText, flatMap_cons, cons_append, cons_append, append_assoc]
    have hmore := reads_more (Nat.lt_of_succ_lt_succ h)
    exact .next ((reads_entry entry).bind (hmore.map (entry :: ·)))

theorem length_lt_moreText : ∀ entries : List MemoryEntry,
    entries.length < (moreText entries).length
  | [] => by decide
  | entry :: rest => by
    have ih := length_lt_moreText rest
    simp only [moreText, flatMap_cons, length_append, length_cons] at ih ⊢
    omega

/-- The records of the object, and its end. -/
def leasesText : List MemoryEntry → Bytes
  | [] => bytes "\x7d"
  | entry :: rest => entryText entry ++ moreText rest

/-- The reader of these. -/
def readLeases : JsonReader (List MemoryEntry) := fun text =>
  if text.head? = some 0x7d then .ok ([], text.tail)
  else (do let entry ← readEntry; (entry :: ·) <$> readMore text.length : JsonReader _) text

theorem reads_leases : ∀ entries, Reads readLeases (leasesText entries) entries
  | [] => fun _ => rfl
  | entry :: rest => by
    intro more
    have hhead : (entryText entry ++ moreText rest ++ more).head? ≠ some 0x7d := by
      intro h
      cases h
    have hlength : rest.length < (entryText entry ++ moreText rest ++ more).length := by
      have hlt := length_lt_moreText rest
      simp only [length_append]
      omega
    show readLeases (entryText entry ++ moreText rest ++ more) = _
    rw [readLeases, if_neg hhead]
    exact ((reads_entry entry).bind ((reads_more hlength).map (entry :: ·))) more

/-- `_encode_state`. -/
def stateText (leases : MemoryRegistry) : Bytes :=
  bytes "\x7b\"leases\":\x7b" ++ (leasesText (leases.entries.insertionSort fun a b =>
    a.1.text ≤ b.1.text) ++ bytes ",\"version\":1\x7d")

/-- The reader of a document. -/
def readState : JsonReader (List MemoryEntry) := do
  expectText (bytes "\x7b\"leases\":\x7b")
  let entries ← readLeases
  expectText (bytes ",\"version\":1\x7d")
  return entries

theorem reads_state (leases : MemoryRegistry) : Reads readState (stateText leases)
    (leases.entries.insertionSort fun a b => a.1.text ≤ b.1.text) := by
  rw [stateText, ← append_nil (bytes ",\"version\":1\x7d")]
  exact (reads_text _).bind ((reads_leases _).bind ((reads_text _).bind fun _ => rfl))

/-- **`json` on the document of the reservations.** -/
def memoryCodec : MemoryCodec where
  dumps := stateText
  loads content :=
    match readState.run content with
    | .ok (entries, []) =>
      if h : entries.keys.Nodup then .ok ⟨entries, h⟩
      else .error "cross-process resident-memory state is corrupt"
    | _ => .error "cross-process resident-memory state is corrupt"
  loads_dumps leases := by
    have hperm := perm_insertionSort (fun a b : MemoryEntry => a.1.text ≤ b.1.text) leases.entries
    have hnodup := (perm_nodupKeys hperm).mpr leases.nodupKeys
    have hread := reads_state leases []
    rw [append_nil] at hread
    exact ⟨⟨_, hnodup⟩, by rw [hread]; exact dif_pos hnodup, hperm⟩
  dumps_ne_nil _ := cons_ne_nil _ _

end SchemaSanitizer
