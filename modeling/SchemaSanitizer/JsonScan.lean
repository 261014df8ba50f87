/-
SchemaSanitizer/JsonScan.lean

The JSON scanner (`internal/parsing/json/ondemand/lex.cc`, `scan.cc`): it checks
one value and moves past it, without building anything.

A cursor is the text that is left and the absolute offset of its first byte.
Errors are the texts of their messages.  Nesting is counted down: a value at
depth `d` is scanned with room `512 - d`, on which the functions recurse.  The
loop over the members of an object is bounded by the limit on their number, and
the loop over the elements of an array by the bytes that are left, one of which
every round uses up.  The flag `saw_escape`, which other readers of the cursor
look at, is left out.
-/
import SchemaSanitizer.Bytes

namespace SchemaSanitizer

/-! ### Cursors -/

/-- `Cursor`. -/
structure Cursor where
  rest : Bytes
  offset : Nat
  deriving DecidableEq, Repr

/-- The cursor after `n` more bytes. -/
def Cursor.advance (c : Cursor) (n : Nat) : Cursor := ⟨c.rest.drop n, c.offset + n⟩

/-- The outcome of a parser: an error is the text of its message. -/
abbrev Parsed (α : Type) := Except Bytes α

/-- `parse_error_at`. -/
def parseErrorAt {α : Type} (offset : Nat) (message : String) : Parsed α :=
  .error (bytes message ++ decimal offset)

/-- `kMaxJsonNestingDepth`. -/
def maxJsonNestingDepth : Nat := 512

/-- `kMaxJsonObjectFields`. -/
def maxJsonObjectFields : Nat := 65536

/-! ### Tokens -/

/-- `is_ws`. -/
def isWs (c : UInt8) : Bool := c == 32 || c == 10 || c == 13 || c == 9

/-- `skip_ws`. -/
def skipWs (c : Cursor) : Cursor := c.advance (c.rest.takeWhile isWs).length

/-- `expect`. -/
def expect (c : Cursor) (ch : UInt8) : Parsed Cursor :=
  if c.rest.head? = some ch then .ok (c.advance 1)
  else
    .error (bytes "JSON parse error: expected '" ++ [ch] ++ bytes "' at byte " ++ decimal c.offset)

/-- `hex_val`. -/
def hexVal (x : UInt8) : Option Nat :=
  if byte '0' ≤ x ∧ x ≤ byte '9' then some (x.toNat - 48)
  else if byte 'a' ≤ x ∧ x ≤ byte 'f' then some (x.toNat - 87)
  else if byte 'A' ≤ x ∧ x ≤ byte 'F' then some (x.toNat - 55)
  else none

/-- `read_hex_quad` on four bytes; the error is at the first that is no digit. -/
def hexQuad (offset : Nat) (h₀ h₁ h₂ h₃ : UInt8) : Parsed Nat :=
  let invalid := fun i : Nat =>
    parseErrorAt (offset + i) "JSON parse error: invalid hex in \\uXXXX escape at byte "
  match hexVal h₀, hexVal h₁, hexVal h₂, hexVal h₃ with
  | none, _, _, _ => invalid 0
  | _, none, _, _ => invalid 1
  | _, _, none, _ => invalid 2
  | _, _, _, none => invalid 3
  | some d₀, some d₁, some d₂, some d₃ => .ok (((d₀ * 16 + d₁) * 16 + d₂) * 16 + d₃)

/-- The letters of escapes of one byte. -/
def isSimpleEscape (c : UInt8) : Bool :=
  c == byte '"' || c == byte '\\' || c == byte '/' || c == byte 'b' || c == byte 'f' ||
    c == byte 'n' || c == byte 'r' || c == byte 't'

/-- What follows a lead byte: the number of continuation bytes and the range of
the first. -/
def leadByte (ch : UInt8) : Option (Nat × UInt8 × UInt8) :=
  if 0xC2 ≤ ch ∧ ch ≤ 0xDF then some (1, 0x80, 0xBF)
  else if 0xE0 ≤ ch ∧ ch ≤ 0xEF then
    some (2, if ch = 0xE0 then 0xA0 else 0x80, if ch = 0xED then 0x9F else 0xBF)
  else if 0xF0 ≤ ch ∧ ch ≤ 0xF4 then
    some (3, if ch = 0xF0 then 0x90 else 0x80, if ch = 0xF4 then 0x8F else 0xBF)
  else none

/-- The number of bytes after a lead byte at `offset` that belong to its character,
all of which are checked. -/
def continuationLength (offset : Nat) (ch : UInt8) (rest : Bytes) : Parsed Nat :=
  match leadByte ch with
  | none => parseErrorAt offset "JSON parse error: invalid UTF-8 lead byte at byte "
  | some (count, lo, hi) =>
    if rest.length < count then
      parseErrorAt offset "JSON parse error: truncated UTF-8 sequence at byte "
    else
      let invalid := fun i : Nat =>
        parseErrorAt (offset + 1 + i) "JSON parse error: invalid UTF-8 continuation at byte "
      match rest.take count with
      | [] => .ok 0
      | second :: more =>
        if second < lo ∨ hi < second then invalid 0
        else
          match more.findIdx? fun b => b < 0x80 || 0xBF < b with
          | some i => invalid (i + 1)
          | none => .ok count

/-- The number of bytes after a backslash at `offset` that belong to its escape. -/
def escapeLength (offset : Nat) : Bytes → Parsed Nat
  | [] => parseErrorAt offset "JSON parse error: unterminated escape at byte "
  | escape :: rest =>
    if isSimpleEscape escape then .ok 1
    else if escape ≠ byte 'u' then
      parseErrorAt (offset + 1) "JSON parse error: invalid escape at byte "
    else
      match rest with
      | h₀ :: h₁ :: h₂ :: h₃ :: rest => do
          let codeUnit ← hexQuad (offset + 2) h₀ h₁ h₂ h₃
          if 0xD800 ≤ codeUnit ∧ codeUnit ≤ 0xDBFF then
            match rest with
            | b :: u :: l₀ :: l₁ :: l₂ :: l₃ :: _ =>
              if b ≠ byte '\\' ∨ u ≠ byte 'u' then
                parseErrorAt (offset + 6) "JSON parse error: missing low surrogate at byte "
              else do
                let low ← hexQuad (offset + 8) l₀ l₁ l₂ l₃
                if low < 0xDC00 ∨ 0xDFFF < low then
                  parseErrorAt (offset + 8) "JSON parse error: invalid low surrogate at byte "
                else .ok 11
            | _ => parseErrorAt (offset + 6) "JSON parse error: missing low surrogate at byte "
          else if 0xDC00 ≤ codeUnit ∧ codeUnit ≤ 0xDFFF then
            parseErrorAt (offset + 2) "JSON parse error: unexpected low surrogate at byte "
          else .ok 5
      | _ =>
        parseErrorAt (offset + 2) "JSON parse error: incomplete \\uXXXX escape at byte "

/-- The number of bytes after `ch`, a byte of a string at `offset` that does not
close it, that belong to the same character or escape. -/
def characterLength (offset : Nat) (ch : UInt8) (rest : Bytes) : Parsed Nat :=
  if ch = byte '\\' then escapeLength offset rest
  else if ch < 0x20 then
    parseErrorAt offset "JSON parse error: control char in string at byte "
  else if ch < 0x80 then .ok 0
  else continuationLength offset ch rest

/-- The loop of `scan_string`: the cursor after the closing quote, and whether there
was an escape.  `skip` bytes belong to the character before. -/
def scanCharacters (start : Nat) : (skip : Nat) → Bytes → (offset : Nat) → (hasEsc : Bool) →
    Parsed (Cursor × Bool)
  | _, [], _, _ => parseErrorAt start "JSON parse error: unterminated string at byte "
  | skip + 1, _ :: rest, offset, hasEsc => scanCharacters start skip rest (offset + 1) hasEsc
  | 0, ch :: rest, offset, hasEsc =>
    if ch = byte '"' then .ok (⟨rest, offset + 1⟩, hasEsc)
    else
      match characterLength offset ch rest with
      | .error e => .error e
      | .ok skip =>
        scanCharacters start skip rest (offset + 1) (hasEsc || ch == byte '\\')

/-- `scan_string`: the text between the quotes, whether it has escapes, and the
cursor after it. -/
def scanString (c : Cursor) : Parsed (Bytes × Bool × Cursor) := do
  let c ← expect c (byte '"')
  let r ← scanCharacters c.offset 0 c.rest c.offset false
  .ok (c.rest.take (c.rest.length - r.1.rest.length - 1), r.2, r.1)

/-- `skip_string`. -/
def skipString (c : Cursor) : Parsed Cursor := do
  let r ← scanString c
  .ok r.2.2

/-- `skip_literal`. -/
def skipLiteral (c : Cursor) (literal : Bytes) : Parsed Cursor :=
  if literal.isPrefixOf c.rest then .ok (c.advance literal.length)
  else parseErrorAt c.offset "JSON parse error: expected literal at byte "

/-! ### Numbers -/

/-- `consume_digits`. -/
def consumeDigits (c : Cursor) : Cursor := c.advance (c.rest.takeWhile isDigit).length

/-- `consume_optional_minus`. -/
def consumeOptionalMinus (c : Cursor) : Cursor :=
  if c.rest.head? = some (byte '-') then c.advance 1 else c

/-- `consume_integer_part`. -/
def consumeIntegerPart (c : Cursor) : Parsed Cursor :=
  match c.rest with
  | [] => parseErrorAt c.offset "JSON parse error: invalid number at byte "
  | d :: _ =>
    if d = byte '0' then .ok (c.advance 1)
    else if isDigit d then .ok (consumeDigits c)
    else parseErrorAt c.offset "JSON parse error: invalid number at byte "

/-- Digits that have to be there. -/
def requireDigits (c : Cursor) (message : String) : Parsed Cursor :=
  if (c.rest.head?.map isDigit).getD false then .ok (consumeDigits c)
  else parseErrorAt c.offset message

/-- `consume_fraction_part`. -/
def consumeFractionPart (c : Cursor) : Parsed Cursor :=
  if c.rest.head? = some (byte '.') then
    requireDigits (c.advance 1) "JSON parse error: invalid fraction at byte "
  else .ok c

/-- `consume_exponent_part`. -/
def consumeExponentPart (c : Cursor) : Parsed Cursor :=
  if c.rest.head? = some (byte 'e') ∨ c.rest.head? = some (byte 'E') then
    let c := c.advance 1
    let signed := c.rest.head? = some (byte '+') ∨ c.rest.head? = some (byte '-')
    requireDigits (if signed then c.advance 1 else c) "JSON parse error: invalid exponent at byte "
  else .ok c

/-- `skip_number`; the integer part is never empty. -/
def skipNumber (c : Cursor) : Parsed Cursor := do
  let c ← consumeIntegerPart (consumeOptionalMinus c)
  let c ← consumeFractionPart c
  consumeExponentPart c

/-! ### Values -/

section Containers

variable (skip : Cursor → Parsed Cursor)

/-- `skip_object_member`, with `skip` for the value. -/
def skipObjectMember (c : Cursor) : Parsed Cursor := do
  if c.rest.head? ≠ some (byte '"') then
    parseErrorAt c.offset "JSON parse error: expected string key at byte "
  else
    let c ← skipString c
    let c ← expect (skipWs c) (byte ':')
    let c ← skip (skipWs c)
    .ok (skipWs c)

/-- `consume_object_separator`: the cursor, and whether the object goes on. -/
def consumeObjectSeparator (c : Cursor) : Parsed (Cursor × Bool) :=
  match c.rest with
  | [] => parseErrorAt c.offset "JSON parse error: unterminated object at byte "
  | ch :: _ =>
    if ch = byte ',' then .ok (skipWs (c.advance 1), true)
    else if ch = byte '\x7d' then .ok (c.advance 1, false)
    else parseErrorAt c.offset "JSON parse error: expected ',' or '\x7d' at byte "

/-- The error of an object with too many members. -/
def objectFieldsError {α : Type} : Parsed α :=
  .error (bytes "JSON object field count exceeds safety limit: " ++
    decimal (maxJsonObjectFields + 1) ++ bytes " > " ++ decimal maxJsonObjectFields)

/-- The loop of `skip_object_at_depth`, with room for `fields` more members. -/
def skipMembers : (fields : Nat) → Cursor → Parsed Cursor
  | 0, _ => objectFieldsError
  | fields + 1, c => do
      let c ← skipObjectMember skip c
      let r ← consumeObjectSeparator c
      if r.2 then skipMembers fields r.1 else .ok r.1

/-- `skip_object_at_depth`. -/
def skipObjectAtDepth (c : Cursor) : Parsed Cursor := do
  let c ← expect c (byte '\x7b')
  let c := skipWs c
  if c.rest.head? = some (byte '\x7d') then .ok (c.advance 1)
  else skipMembers skip maxJsonObjectFields c

/-- The loop of `skip_array_at_depth`; every round uses up a byte, so that `fuel`
never ends it. -/
def skipElements : (fuel : Nat) → Cursor → Parsed Cursor
  | 0, c => parseErrorAt c.offset "JSON parse error: unterminated array at byte "
  | fuel + 1, c => do
      let c ← skip c
      let c := skipWs c
      match c.rest with
      | [] => parseErrorAt c.offset "JSON parse error: unterminated array at byte "
      | ch :: _ =>
        if ch = byte ',' then skipElements fuel (skipWs (c.advance 1))
        else if ch = byte ']' then .ok (c.advance 1)
        else parseErrorAt c.offset "JSON parse error: expected ',' or ']' at byte "

/-- `skip_array_at_depth`. -/
def skipArrayAtDepth (c : Cursor) : Parsed Cursor := do
  let c ← expect c (byte '[')
  let c := skipWs c
  if c.rest.head? = some (byte ']') then .ok (c.advance 1)
  else skipElements skip (c.rest.length + 1) c

end Containers

/-- `skip_value_at_depth`, with room for containers in each other. -/
def skipValueAtDepth : (room : Nat) → Cursor → Parsed Cursor
  | room, c =>
    let c := skipWs c
    match c.rest with
    | [] => parseErrorAt c.offset "JSON parse error: unexpected end at byte "
    | ch :: _ =>
      if ch = byte 'n' then skipLiteral c (bytes "null")
      else if ch = byte 't' then skipLiteral c (bytes "true")
      else if ch = byte 'f' then skipLiteral c (bytes "false")
      else if ch = byte '"' then skipString c
      else if ch = byte '\x7b' ∨ ch = byte '[' then
        match room with
        | 0 =>
          parseErrorAt c.offset
            "JSON parse error: nesting exceeds safety limit 512 at byte "
        | room + 1 =>
          if ch = byte '\x7b' then skipObjectAtDepth (skipValueAtDepth room) c
          else skipArrayAtDepth (skipValueAtDepth room) c
      else if ch = byte '-' ∨ isDigit ch then skipNumber c
      else parseErrorAt c.offset "JSON parse error: invalid value at byte "

/-- `skip_value`. -/
def skipValue (c : Cursor) : Parsed Cursor := skipValueAtDepth maxJsonNestingDepth c

/-- `json_skip_value`: where in `text` the value ends that begins at `start`. -/
def jsonSkipValue (text : Bytes) (start baseOffset : Nat) : Parsed Nat :=
  if text.length < start then .error (bytes "json_skip_value: start out of range")
  else do
    let c ← skipValue (skipWs ⟨text.drop start, baseOffset + start⟩)
    .ok (c.offset - baseOffset)

end SchemaSanitizer
