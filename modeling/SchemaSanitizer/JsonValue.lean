/-
SchemaSanitizer/JsonValue.lean

JSON values on demand (`internal/parsing/json/ondemand/value.cc`, `scalar.cc`,
`object_iteration.cc`, `array_iteration.cc` and `string_decode.cc`).  A container
is a view of its text: its members are parsed when a caller iterates over them.

The callbacks of the iterations take and return a state.  Whether the text of a
number is a float (`parse_ascii_float64_strict`) is a parameter, and a float is
kept as its text.  Arenas and key hashes are left out.
-/
import SchemaSanitizer.Document
import SchemaSanitizer.JsonScan

namespace SchemaSanitizer

/-! ### Strings -/

/-- `DecodeErrors`. -/
structure DecodeErrors where
  truncatedEscape : String
  incompleteUnicodeEscape : String
  invalidUnicodeHex : String
  missingLowSurrogate : String
  invalidLowSurrogateHex : String
  invalidLowSurrogateRange : String
  unexpectedLowSurrogate : String
  invalidEscape : String

/-- `kStringDecodeErrors`. -/
def stringDecodeErrors : DecodeErrors where
  truncatedEscape := "JSON parse error: truncated escape"
  incompleteUnicodeEscape := "JSON parse error: incomplete \\uXXXX escape"
  invalidUnicodeHex := "JSON parse error: invalid hex in \\uXXXX"
  missingLowSurrogate := "JSON parse error: missing low surrogate"
  invalidLowSurrogateHex := "JSON parse error: invalid hex in low surrogate"
  invalidLowSurrogateRange := "JSON parse error: invalid low surrogate range"
  unexpectedLowSurrogate := "JSON parse error: unexpected low surrogate"
  invalidEscape := "JSON parse error: invalid escape"

/-- `kKeyDecodeErrors`. -/
def keyDecodeErrors : DecodeErrors where
  truncatedEscape := "JSON parse error: truncated escape in key"
  incompleteUnicodeEscape := "JSON parse error: incomplete \\uXXXX in key"
  invalidUnicodeHex := "JSON parse error: invalid hex in key \\uXXXX"
  missingLowSurrogate := "JSON parse error: missing low surrogate in key"
  invalidLowSurrogateHex := "JSON parse error: invalid low surrogate hex in key"
  invalidLowSurrogateRange := "JSON parse error: invalid low surrogate range in key"
  unexpectedLowSurrogate := "JSON parse error: unexpected low surrogate in key"
  invalidEscape := "JSON parse error: invalid escape in key"

/-- `ParseError`. -/
def parseError {α : Type} (message : String) (offset : Nat) : Parsed α :=
  .error (bytes message ++ bytes " at byte " ++ decimal offset)

/-- `append_utf8`. -/
def appendUtf8 (cp : Nat) : Bytes :=
  let tail := fun n : Nat => UInt8.ofNat (0x80 + n % 64)
  if cp ≤ 0x7F then [UInt8.ofNat cp]
  else if cp ≤ 0x7FF then [UInt8.ofNat (0xC0 + cp / 64), tail cp]
  else if cp ≤ 0xFFFF then [UInt8.ofNat (0xE0 + cp / 4096), tail (cp / 64), tail cp]
  else [UInt8.ofNat (0xF0 + cp / 262144), tail (cp / 4096), tail (cp / 64), tail cp]

/-- `append_simple_escape`. -/
def simpleEscape (c : UInt8) : Option UInt8 :=
  if c = byte '"' then some (byte '"')
  else if c = byte '\\' then some (byte '\\')
  else if c = byte '/' then some (byte '/')
  else if c = byte 'b' then some 8
  else if c = byte 'f' then some 12
  else if c = byte 'n' then some 10
  else if c = byte 'r' then some 13
  else if c = byte 't' then some 9
  else none

/-- `read_hex_quad` of the decoder. -/
def decodeHexQuad (h₀ h₁ h₂ h₃ : UInt8) : Option Nat := do
  let d₀ ← hexVal h₀
  let d₁ ← hexVal h₁
  let d₂ ← hexVal h₂
  let d₃ ← hexVal h₃
  some (((d₀ * 16 + d₁) * 16 + d₂) * 16 + d₃)

/-- `decode_json_string_slice`. -/
def decodeJsonString (errors : DecodeErrors) : Bytes → (offset : Nat) → Parsed Bytes
  | [], _ => .ok []
  | x :: rest, offset =>
    if x ≠ byte '\\' then (decodeJsonString errors rest (offset + 1)).map (x :: ·)
    else
      match rest with
      | [] => parseError errors.truncatedEscape (offset + 1)
      | esc :: rest =>
        if esc ≠ byte 'u' then
          match simpleEscape esc with
          | none => parseError errors.invalidEscape (offset + 2)
          | some b => (decodeJsonString errors rest (offset + 2)).map (b :: ·)
        else
          match rest with
          | h₀ :: h₁ :: h₂ :: h₃ :: rest =>
            match decodeHexQuad h₀ h₁ h₂ h₃ with
            | none => parseError errors.invalidUnicodeHex (offset + 2)
            | some cp =>
              if 0xD800 ≤ cp ∧ cp ≤ 0xDBFF then
                match rest with
                | b :: u :: l₀ :: l₁ :: l₂ :: l₃ :: rest =>
                  if b ≠ byte '\\' ∨ u ≠ byte 'u' then
                    parseError errors.missingLowSurrogate (offset + 6)
                  else
                    match decodeHexQuad l₀ l₁ l₂ l₃ with
                    | none => parseError errors.invalidLowSurrogateHex (offset + 8)
                    | some low =>
                      if low < 0xDC00 ∨ 0xDFFF < low then
                        parseError errors.invalidLowSurrogateRange (offset + 12)
                      else
                        (decodeJsonString errors rest (offset + 12)).map
                          (appendUtf8
                            (0x10000 + ((cp - 0xD800) * 1024 + (low - 0xDC00))) ++ ·)
                | _ => parseError errors.missingLowSurrogate (offset + 6)
              else if 0xDC00 ≤ cp ∧ cp ≤ 0xDFFF then
                parseError errors.unexpectedLowSurrogate (offset + 6)
              else (decodeJsonString errors rest (offset + 6)).map (appendUtf8 cp ++ ·)
          | _ => parseError errors.incompleteUnicodeEscape (offset + 2)

/-- The content of a scanned string: its text as it is, or decoded if it has escapes. -/
def stringContent (errors : DecodeErrors) (text : Bytes) (hasEsc : Bool) (offset : Nat) :
    Parsed Bytes :=
  if hasEsc then decodeJsonString errors text offset else .ok text

/-! ### Values -/

/-- `ValueView`, with the text and the offset of a container. -/
inductive ValueView
  | null
  | bool (b : Bool)
  | int (n : Int)
  | float (text : Bytes)
  | string (s : Bytes)
  | object (text : Bytes) (baseOffset : Nat)
  | array (text : Bytes) (baseOffset : Nat)
  deriving DecidableEq, Repr

section Values

variable (isFloat : Bytes → Bool)

/-- `ExpectEnd`, before a value is returned. -/
def expectEnd {α : Type} (c : Cursor) (value : α) : Parsed α :=
  let c := skipWs c
  if c.rest = [] then .ok value
  else parseError "JSON parse error: trailing characters" c.offset

/-- `ParseStringValue`. -/
def parseStringValue (c : Cursor) : Parsed ValueView := do
  let r ← scanString c
  expectEnd r.2.2 ()
  let s ← stringContent stringDecodeErrors r.1 r.2.1 (c.offset + 1)
  .ok (.string s)

/-- `ParseObjectValue` and `ParseArrayValue`: `view` of the text of the value. -/
def parseContainerValue (view : Bytes → Nat → ValueView) (c : Cursor) : Parsed ValueView := do
  let after ← skipValue c
  expectEnd after (view (c.rest.take (c.rest.length - after.rest.length)) c.offset)

/-- `ParseNumberValue`. -/
def parseNumberValue (c : Cursor) : Parsed ValueView := do
  let after ← skipNumber c
  expectEnd after ()
  let number := c.rest.take (c.rest.length - after.rest.length)
  match fromChars int64Min int64Max number with
  | some (n, []) => .ok (.int n)
  | _ =>
    if isFloat number then .ok (.float number)
    else parseError "JSON parse error: invalid float" c.offset

/-- `ParseValue`. -/
def parseValue (text : Bytes) (baseOffset : Nat) : Parsed ValueView :=
  let c := skipWs ⟨text, baseOffset⟩
  match c.rest with
  | [] => parseError "JSON parse error: empty input" c.offset
  | ch :: _ =>
    if ch = byte 'n' then do
      let after ← skipLiteral c (bytes "null")
      expectEnd after .null
    else if ch = byte 't' then do
      let after ← skipLiteral c (bytes "true")
      expectEnd after (.bool true)
    else if ch = byte 'f' then do
      let after ← skipLiteral c (bytes "false")
      expectEnd after (.bool false)
    else if ch = byte '"' then parseStringValue c
    else if ch = byte '\x7b' then parseContainerValue .object c
    else if ch = byte '[' then parseContainerValue .array c
    else if ch = byte '-' ∨ isDigit ch then parseNumberValue isFloat c
    else parseError "JSON parse error: invalid value" c.offset

/-- `ParseChildValue`: the value, and the cursor after it. -/
def parseChildValue (c : Cursor) : Parsed (ValueView × Cursor) := do
  let after ← skipValue c
  let value ← parseValue isFloat (c.rest.take (c.rest.length - after.rest.length)) c.offset
  .ok (value, after)

/-! ### Iteration -/

variable {σ : Type}

/-- `ParseObjectKey`. -/
def parseObjectKey (c : Cursor) : Parsed (Bytes × Cursor) :=
  if c.rest.head? ≠ some (byte '"') then
    parseError "JSON parse error: expected string key" c.offset
  else do
    let r ← scanString c
    let key ← stringContent keyDecodeErrors r.1 r.2.1 (c.offset + 1)
    .ok (key, r.2.2)

/-- `AdvanceObjectIterator` and `AdvanceArrayIterator`: the cursor, and whether the
container goes on. -/
def advanceIterator (close : UInt8) (unterminated expected : String) (c : Cursor) :
    Parsed (Cursor × Bool) :=
  let c := skipWs c
  match c.rest with
  | [] => parseError unterminated c.offset
  | ch :: _ =>
    if ch = byte ',' then .ok (skipWs (c.advance 1), true)
    else if ch = close then .ok (c.advance 1, false)
    else parseError expected c.offset

@[inherit_doc advanceIterator]
def advanceObjectIterator : Cursor → Parsed (Cursor × Bool) :=
  advanceIterator (byte '\x7d') "JSON parse error: unterminated object"
    "JSON parse error: expected ',' or '\x7d'"

@[inherit_doc advanceIterator]
def advanceArrayIterator : Cursor → Parsed (Cursor × Bool) :=
  advanceIterator (byte ']') "JSON parse error: unterminated array"
    "JSON parse error: expected ',' or ']'"

/-- The loop of `ForEachObjectFieldC`, with room for `fields` more members. -/
def forEachMember (visit : σ → Bytes → ValueView → Parsed σ) :
    (fields : Nat) → Cursor → σ → Parsed σ
  | 0, _, _ => objectFieldsError
  | fields + 1, c, s => do
      let key ← parseObjectKey c
      let c ← expect (skipWs key.2) (byte ':')
      let value ← parseChildValue isFloat (skipWs c)
      let s ← visit s key.1 value.1
      let r ← advanceObjectIterator value.2
      if r.2 then forEachMember visit fields r.1 s else .ok s

/-- `ForEachObjectFieldC`. -/
def forEachObjectField (visit : σ → Bytes → ValueView → Parsed σ) (text : Bytes)
    (baseOffset : Nat) (s : σ) : Parsed σ :=
  let c := skipWs ⟨text, baseOffset⟩
  if c.rest.head? ≠ some (byte '\x7b') then
    parseError "JSON parse error: expected object" c.offset
  else
    let c := skipWs (c.advance 1)
    if c.rest.head? = some (byte '\x7d') then .ok s
    else forEachMember isFloat visit maxJsonObjectFields c s

/-- The loop of `ForEachArrayElementC`; every round uses up a byte, so that `fuel`
never ends it. -/
def forEachElement (visit : σ → ValueView → Parsed σ) : (fuel : Nat) → Cursor → σ → Parsed σ
  | 0, c, _ => parseError "JSON parse error: unterminated array" c.offset
  | fuel + 1, c, s => do
      let value ← parseChildValue isFloat c
      let s ← visit s value.1
      let r ← advanceArrayIterator value.2
      if r.2 then forEachElement visit fuel r.1 s else .ok s

/-- `ForEachArrayElementC`. -/
def forEachArrayElement (visit : σ → ValueView → Parsed σ) (text : Bytes) (baseOffset : Nat)
    (s : σ) : Parsed σ :=
  let c := skipWs ⟨text, baseOffset⟩
  if c.rest.head? ≠ some (byte '[') then
    parseError "JSON parse error: expected array" c.offset
  else
    let c := skipWs (c.advance 1)
    if c.rest.head? = some (byte ']') then .ok s
    else forEachElement isFloat visit (c.rest.length + 1) c s

end Values

end SchemaSanitizer
