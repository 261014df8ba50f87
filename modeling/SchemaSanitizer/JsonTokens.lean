/-
SchemaSanitizer/JsonTokens.lean

The tokens of JSON as the scanner reads them: white space, strings and numbers.

Design.  A token is a predicate on its bytes, and the characters of a string come
with what they are decoded to.  `c.Moves t c'` says that the cursor has moved over
the text `t`.  Each function of the scanner has two lemmas: it has moved over such a
token, and it moves over such a token.  The scanner looks beyond a token only where
a number ends, so that only there the next byte has to be a delimiter.
-/
import SchemaSanitizer.Lib.Utf8
import SchemaSanitizer.Lib.Failure
import SchemaSanitizer.JsonValue

namespace SchemaSanitizer

open Lib List

/-! ### Moving over a text -/

/-- The cursor `c'` is `c` after the text `t`. -/
structure Cursor.Moves (c : Cursor) (t : Bytes) (c' : Cursor) : Prop where
  rest : c.rest = t ++ c'.rest
  offset : c'.offset = c.offset + t.length

namespace Cursor.Moves

variable {c c' c'' : Cursor} {t u : Bytes} {ch : UInt8}

theorem refl (c : Cursor) : c.Moves [] c := ⟨rfl, rfl⟩

theorem trans (h : c.Moves t c') (h' : c'.Moves u c'') : c.Moves (t ++ u) c'' where
  rest := by rw [h.rest, h'.rest, append_assoc]
  offset := by rw [h'.offset, h.offset, length_append, Nat.add_assoc]

theorem start (t rest : Bytes) (offset : Nat) :
    (⟨t ++ rest, offset⟩ : Cursor).Moves t ⟨rest, offset + t.length⟩ := ⟨rfl, rfl⟩

theorem split (h : c.Moves (t ++ u) c') : ∃ c₁, c.Moves t c₁ ∧ c₁.Moves u c' := by
  refine ⟨⟨u ++ c'.rest, c.offset + t.length⟩, ⟨?_, rfl⟩, ⟨rfl, ?_⟩⟩
  · rw [h.rest, append_assoc]
  · rw [h.offset, length_append, Nat.add_assoc]

theorem split_cons (h : c.Moves (ch :: t) c') : ∃ c₁, c.Moves [ch] c₁ ∧ c₁.Moves t c' :=
  split h

theorem advance (h : c.Moves t c') : c.advance t.length = c' := by
  obtain ⟨rest, offset⟩ := c'
  rw [Cursor.advance, h.rest, drop_left, ← h.offset]

theorem take (h : c.Moves t c') : c.rest.take (c.rest.length - c'.rest.length) = t := by
  rw [h.rest, length_append, Nat.add_sub_cancel, take_left]

theorem head? (h : c.Moves (ch :: t) c') : c.rest.head? = some ch := by
  rw [h.rest]
  rfl

theorem head (h : c.rest.head? = some ch) : c.Moves [ch] (c.advance 1) := by
  obtain ⟨rest, offset⟩ := c
  obtain ⟨more, rfl⟩ := head?_eq_some_iff.mp h
  exact ⟨rfl, rfl⟩

theorem takeWhile (c : Cursor) (p : UInt8 → Bool) :
    c.Moves (c.rest.takeWhile p) (c.advance (c.rest.takeWhile p).length) where
  rest := by
    have hread := takeWhile_prefix p (l := c.rest)
    exact (prefix_iff_eq_append.mp hread).symm
  offset := rfl

end Cursor.Moves

variable {t : Bytes} {c c' : Cursor}

/-- The next byte, if there is one, passes a test. -/
def Next (p : UInt8 → Bool) (rest : Bytes) : Prop := ∀ c, rest.head? = some c → p c = true

theorem next_nil (p : UInt8 → Bool) : Next p [] := by
  rintro c ⟨⟩

theorem next_cons {p : UInt8 → Bool} {c : UInt8} (h : p c = true) (rest : Bytes) :
    Next p (c :: rest) := by
  rintro _ ⟨rfl⟩
  exact h

theorem advance_takeWhile {p : UInt8 → Bool} (h : c.Moves t c') (ht : ∀ b ∈ t, p b = true)
    (hnext : Next (!p ·) c'.rest) : c.advance (c.rest.takeWhile p).length = c' := by
  have htake : c.rest.takeWhile p = t := by
    rw [h.rest, takeWhile_append_of_pos ht]
    rcases hrest : c'.rest with - | ⟨b, rest⟩
    · simp
    · have hb := hnext b (by rw [hrest]; rfl)
      rw [takeWhile_cons_of_neg (by simpa using hb), append_nil]
  rw [htake, h.advance]

/-- A text of white space. -/
def Blank (w : Bytes) : Prop := ∀ c ∈ w, isWs c = true

theorem blank_nil : Blank [] := by simp [Blank]

theorem Blank.append {w w' : Bytes} (h : Blank w) (h' : Blank w') : Blank (w ++ w') :=
  forall_mem_append.mpr ⟨h, h'⟩

theorem moves_skipWs (c : Cursor) : ∃ w, Blank w ∧ c.Moves w (skipWs c) :=
  ⟨c.rest.takeWhile isWs, fun _ hc => mem_takeWhile_imp hc, .takeWhile c isWs⟩

theorem Blank.skipWs {w : Bytes} {c c' : Cursor} (hw : Blank w) (h : c.Moves w c')
    (hnext : Next (!isWs ·) c'.rest) : skipWs c = c' :=
  advance_takeWhile h hw hnext

/-- `is_primitive_delim`, which is also `worker_frame_delimiter`. -/
def isPrimitiveDelim (c : UInt8) : Bool :=
  isWs c || c == byte ',' || c == byte ']' || c == byte '\x7d'

/-- The text is at its end, or goes on with a delimiter. -/
abbrev AtDelimiter (rest : Bytes) : Prop := Next isPrimitiveDelim rest

theorem Blank.atDelimiter {w rest : Bytes} (hw : Blank w) (hrest : AtDelimiter rest) :
    AtDelimiter (w ++ rest) := by
  cases w with
  | nil => exact hrest
  | cons c w =>
    refine next_cons ?_ _
    rw [isPrimitiveDelim, hw c mem_cons_self]
    rfl

theorem expect_eq_ok_iff {ch : UInt8} : expect c ch = .ok c' ↔ c.Moves [ch] c' := by
  rw [expect]
  constructor
  · intro h
    split at h
    · rename_i hhead
      cases h
      exact .head hhead
    · cases h
  · intro h
    rw [if_pos h.head?]
    exact congrArg Except.ok h.advance

theorem skipLiteral_eq_ok_iff {literal : Bytes} :
    skipLiteral c literal = .ok c' ↔ c.Moves literal c' := by
  rw [skipLiteral]
  constructor
  · intro h
    split at h
    · rename_i hprefix
      cases h
      obtain ⟨more, hmore⟩ := isPrefixOf_iff_prefix.mp hprefix
      exact ⟨by simp [Cursor.advance, ← hmore], rfl⟩
    · cases h
  · intro h
    rw [if_pos (by rw [h.rest]; simp), h.advance]

/-- `requires_json_escape`. -/
def requiresJsonEscape (c : UInt8) : Bool := c < 32 || c == byte '"' || c == byte '\\'

/-! ### Characters beyond ASCII -/

variable {offset n : Nat} {u : Bytes}

theorem high_byte {b : UInt8} (h : 0x80 ≤ b) :
    requiresJsonEscape b = false ∧ b ≠ byte '"' ∧ b ≠ byte '\\' ∧ ¬ b < 0x20 ∧ ¬ b < 0x80 := by
  revert h
  exact forall_byte (by decide +kernel) b

/-- **A character beyond ASCII**: its lead byte says how many bytes follow, and in which
range the first of them is. -/
theorem utf8Char_iff {a b : UInt8} {more : Bytes} :
    Utf8Char (a :: b :: more) ↔ ∃ lo hi, leadByte a = some (more.length + 1, lo, hi) ∧
      (lo ≤ b ∧ b ≤ hi) ∧ ∀ c ∈ more, IsContinuation c := by
  have hrange : ∀ {p q : Prop} [Decidable p] [Decidable q] {lo hi : UInt8}, 0x80 ≤ lo → hi ≤ 0xBF →
      (((if p then lo else 0x80) ≤ b ∧ b ≤ if q then hi else 0xBF) ↔
        IsContinuation b ∧ (p → lo ≤ b) ∧ (q → b ≤ hi)) := by
    intro p q _ _ lo hi hlo hhi
    have hlow : 0x80 ≤ (if p then lo else 0x80) := by
      split
      · exact hlo
      · exact UInt8.le_refl _
    have hhigh : (if q then hi else 0xBF) ≤ 0xBF := by
      split
      · exact hhi
      · exact UInt8.le_refl _
    constructor
    · rintro ⟨h₁, h₂⟩
      refine ⟨⟨UInt8.le_trans hlow h₁, UInt8.le_trans h₂ hhigh⟩, fun hp => ?_, fun hq => ?_⟩
      · rwa [if_pos hp] at h₁
      · rwa [if_pos hq] at h₂
    · rintro ⟨⟨h₁, h₂⟩, hp, hq⟩
      constructor
      · split
        · exact hp ‹_›
        · exact h₁
      · split
        · exact hq ‹_›
        · exact h₂
  constructor
  · intro h
    cases h with
    | two hlo hhi hb => exact ⟨_, _, if_pos ⟨hlo, hhi⟩, hb, by simp⟩
    | three hlo hhi hb hE0 hED hc =>
      have hne : ¬ (0xC2 ≤ a ∧ a ≤ 0xDF) := fun h => absurd (UInt8.le_trans hlo h.2) (by decide)
      exact ⟨_, _, (if_neg hne).trans (if_pos ⟨hlo, hhi⟩),
        (hrange (by decide) (by decide)).mpr ⟨hb, hE0, hED⟩, by simpa using hc⟩
    | four hlo hhi hb hF0 hF4 hc hd =>
      have hne : ¬ (0xC2 ≤ a ∧ a ≤ 0xDF) := fun h => absurd (UInt8.le_trans hlo h.2) (by decide)
      have hne' : ¬ (0xE0 ≤ a ∧ a ≤ 0xEF) := fun h => absurd (UInt8.le_trans hlo h.2) (by decide)
      exact ⟨_, _, (if_neg hne).trans ((if_neg hne').trans (if_pos ⟨hlo, hhi⟩)),
        (hrange (by decide) (by decide)).mpr ⟨hb, hF0, hF4⟩, by simpa using ⟨hc, hd⟩⟩
  · rintro ⟨lo, hi, hlead, hb, hmore⟩
    rw [leadByte] at hlead
    split at hlead
    · rename_i ha
      obtain ⟨hlen, rfl, rfl⟩ : 1 = more.length + 1 ∧ 0x80 = lo ∧ 0xBF = hi := by simpa using hlead
      obtain rfl : more = [] := length_eq_zero_iff.mp (by omega)
      exact .two ha.1 ha.2 hb
    · split at hlead
      · rename_i ha
        obtain ⟨hlen, rfl, rfl⟩ : 2 = more.length + 1 ∧ _ = lo ∧ _ = hi := by simpa using hlead
        obtain ⟨c, rfl⟩ := length_eq_one_iff.mp (show more.length = 1 by omega)
        obtain ⟨hb, hE0, hED⟩ := (hrange (by decide) (by decide)).mp hb
        exact .three ha.1 ha.2 hb hE0 hED (hmore c (by simp))
      · split at hlead
        · rename_i ha
          obtain ⟨hlen, rfl, rfl⟩ : 3 = more.length + 1 ∧ _ = lo ∧ _ = hi := by simpa using hlead
          obtain ⟨c, d, rfl⟩ := length_eq_two.mp (show more.length = 2 by omega)
          obtain ⟨hb, hF0, hF4⟩ := (hrange (by decide) (by decide)).mp hb
          exact .four ha.1 ha.2 hb hF0 hF4 (hmore c (by simp)) (hmore d (by simp))
        · cases hlead

theorem findIdx?_continuation {more : Bytes} :
    more.findIdx? (fun b => b < 0x80 || 0xBF < b) = none ↔ ∀ b ∈ more, IsContinuation b := by
  simp [findIdx?_eq_none_iff, IsContinuation]

/-- **The bytes after a lead byte** that are taken for its character are those of one. -/
theorem continuationLength_eq_ok_iff {a : UInt8} (ha : 0x80 ≤ a) :
    continuationLength offset a u = .ok n ↔
      ∃ t rest, u = t ++ rest ∧ t.length = n ∧ Utf8Char (a :: t) := by
  rw [continuationLength]
  constructor
  · intro h
    split at h
    · cases h
    · rename_i count lo hi hlead
      split at h
      · cases h
      · rename_i hlen
        have htake : (u.take count).length = count := by
          rw [length_take]
          omega
        dsimp only at h
        split at h
        · rename_i hnil
          have hcount : leadByte a ≠ some (0, lo, hi) := by
            rw [leadByte]
            split_ifs <;> simp
          rw [← htake, hnil] at hlead
          exact absurd hlead hcount
        · rename_i b more hmore
          split at h
          · cases h
          · rename_i hb
            split at h
            · cases h
            · rename_i hnone
              cases h
              rw [hmore] at htake
              refine ⟨b :: more, u.drop n, ?_, htake, utf8Char_iff.mpr ⟨lo, hi, ?_, ?_, ?_⟩⟩
              · rw [← hmore, take_append_drop]
              · rw [hlead, ← htake, length_cons]
              · simpa using hb
              · exact findIdx?_continuation.mp hnone
  · rintro ⟨t, rest, rfl, rfl, h⟩
    cases t with
    | nil =>
      cases h with
      | ascii hlt => exact absurd hlt (UInt8.not_lt.mpr ha)
    | cons b more =>
      obtain ⟨lo, hi, hlead, hb, hmore⟩ := utf8Char_iff.mp h
      have hlen : ¬ (b :: more ++ rest).length < more.length + 1 := by simp
      have hb' : ¬ (b < lo ∨ hi < b) := by simpa using hb
      have htake : (b :: more ++ rest).take (more.length + 1) = b :: more := by simp
      simp only [hlead, if_neg hlen, htake, if_neg hb', findIdx?_continuation.mpr hmore]
      rfl

/-! ### Strings -/

variable {out s : Bytes}

theorem hexQuad_eq_ok_iff {v : Nat} {h₀ h₁ h₂ h₃ : UInt8} :
    hexQuad offset h₀ h₁ h₂ h₃ = .ok v ↔ decodeHexQuad h₀ h₁ h₂ h₃ = some v := by
  rw [hexQuad, decodeHexQuad]
  cases hexVal h₀ <;> cases hexVal h₁ <;> cases hexVal h₂ <;> cases hexVal h₃ <;>
    simp [parseErrorAt]

/-- An escape without its backslash, and what it stands for: one letter, a code unit, or
two code units for one character. -/
inductive EscapeText : Bytes → Bytes → Prop
  | letter {e b : UInt8} (he : simpleEscape e = some b) : EscapeText [e] [b]
  | unit {h₀ h₁ h₂ h₃ : UInt8} {v : Nat} (hv : decodeHexQuad h₀ h₁ h₂ h₃ = some v)
      (hhigh : ¬ (0xD800 ≤ v ∧ v ≤ 0xDBFF)) (hlow : ¬ (0xDC00 ≤ v ∧ v ≤ 0xDFFF)) :
      EscapeText [byte 'u', h₀, h₁, h₂, h₃] (appendUtf8 v)
  | pair {h₀ h₁ h₂ h₃ l₀ l₁ l₂ l₃ : UInt8} {v low : Nat} (hv : decodeHexQuad h₀ h₁ h₂ h₃ = some v)
      (hhigh : 0xD800 ≤ v ∧ v ≤ 0xDBFF) (hl : decodeHexQuad l₀ l₁ l₂ l₃ = some low)
      (hlow : ¬ (low < 0xDC00 ∨ 0xDFFF < low)) :
      EscapeText [byte 'u', h₀, h₁, h₂, h₃, byte '\\', byte 'u', l₀, l₁, l₂, l₃]
        (appendUtf8 (0x10000 + ((v - 0xD800) * 1024 + (low - 0xDC00))))

/-- One character of a string: written as it is, or as an escape. -/
inductive JsonCharacter : Bytes → Bytes → Prop
  | utf8 {c : Bytes} (hc : Utf8Char c) (hplain : c.any requiresJsonEscape = false) :
    JsonCharacter c c
  | escape {t out : Bytes} (ht : EscapeText t out) : JsonCharacter (byte '\\' :: t) out

/-- What may stand between the quotes of a string, and what it stands for. -/
inductive JsonCharacters : Bytes → Bytes → Prop
  | nil : JsonCharacters [] []
  | cons {t s out outs : Bytes} (ht : JsonCharacter t out) (hs : JsonCharacters s outs) :
      JsonCharacters (t ++ s) (out ++ outs)

/-- A string with its quotes. -/
def quoted (s : Bytes) : Bytes := byte '"' :: (s ++ [byte '"'])

theorem isSimpleEscape_iff {e : UInt8} : isSimpleEscape e = true ↔
    ∃ b, simpleEscape e = some b := by
  have he : isSimpleEscape e = (simpleEscape e).isSome := forall_byte (by decide +kernel) e
  rw [he, Option.isSome_iff_exists]

/-- An accepted escape is one of the grammar's escapes. -/
theorem escapeText_of_escapeLength (h : escapeLength offset u = .ok n) :
    ∃ t rest out, u = t ++ rest ∧ t.length = n ∧ EscapeText t out := by
  rw [escapeLength.eq_def] at h
  split at h
  · cases h
  · rename_i escape rest
    split at h
    · rename_i hsimple
      obtain ⟨b, hb⟩ := isSimpleEscape_iff.mp hsimple
      cases h
      exact ⟨[escape], rest, [b], rfl, rfl, .letter hb⟩
    · split at h
      · cases h
      · rename_i hu
        obtain rfl : escape = byte 'u' := not_not.mp hu
        split at h
        · rename_i h₀ h₁ h₂ h₃ rest
          obtain ⟨v, hv, hnext⟩ := bind_eq_ok_iff.mp h
          rw [hexQuad_eq_ok_iff] at hv
          clear h
          split at hnext
          · rename_i hhigh
            split at hnext
            · rename_i b u l₀ l₁ l₂ l₃ rest
              split at hnext
              · cases hnext
              · rename_i hback
                obtain ⟨rfl, rfl⟩ : b = byte '\\' ∧ u = byte 'u' := by simpa using hback
                obtain ⟨low, hl, hnext⟩ := bind_eq_ok_iff.mp hnext
                rw [hexQuad_eq_ok_iff] at hl
                split at hnext
                · cases hnext
                · rename_i hlow
                  cases hnext
                  exact ⟨_, rest, _, rfl, rfl, .pair hv hhigh hl hlow⟩
            · cases hnext
          · rename_i hhigh
            split at hnext
            · cases hnext
            · rename_i hlow
              cases hnext
              exact ⟨_, rest, _, rfl, rfl, .unit hv hhigh hlow⟩
        · cases h

theorem EscapeText.length (h : EscapeText t out) (offset : Nat) (tail : Bytes) :
    escapeLength offset (t ++ tail) = .ok t.length := by
  have hu : isSimpleEscape (byte 'u') = false := by decide
  rw [escapeLength.eq_def]
  cases h with
  | letter he => exact if_pos (isSimpleEscape_iff.mpr ⟨_, he⟩)
  | unit hv hhigh hlow =>
    simp only [cons_append, hu, hexQuad_eq_ok_iff.mpr hv, hhigh, hlow, ok_bind, ne_eq,
      not_true_eq_false, Bool.false_eq_true, if_false]
    rfl
  | pair hv hhigh hl hlow =>
    simp only [cons_append, hu, hexQuad_eq_ok_iff.mpr hv, hhigh, hexQuad_eq_ok_iff.mpr hl, hlow,
      ok_bind, ne_eq, not_true_eq_false, Bool.false_eq_true, or_self, and_self, if_true, if_false]
    rfl

theorem requiresJsonEscape_eq_false {c : UInt8} :
    requiresJsonEscape c = false ↔ ¬ c < 0x20 ∧ c ≠ byte '"' ∧ c ≠ byte '\\' := by
  simp [requiresJsonEscape, and_assoc]

/-- **What is taken for a character of a string is one.** -/
theorem characterLength_eq_ok_iff {o : Nat} {ch : UInt8} (hquote : ch ≠ byte '"') :
    characterLength o ch u = .ok n ↔
      ∃ t rest out, u = t ++ rest ∧ t.length = n ∧ JsonCharacter (ch :: t) out := by
  rw [characterLength]
  constructor
  · intro h
    split at h
    · rename_i hback
      obtain ⟨t, rest, out, hu, hn, ht⟩ := escapeText_of_escapeLength h
      exact ⟨t, rest, out, hu, hn, hback ▸ .escape ht⟩
    · rename_i hback
      split at h
      · cases h
      · rename_i hcontrol
        split at h
        · rename_i hascii
          cases h
          refine ⟨[], u, _, rfl, rfl, .utf8 (.ascii hascii) ?_⟩
          simpa using requiresJsonEscape_eq_false.mpr ⟨hcontrol, hquote, hback⟩
        · rename_i hascii
          have hhigh := UInt8.not_lt.mp hascii
          obtain ⟨t, rest, hu, hn, ht⟩ := (continuationLength_eq_ok_iff hhigh).mp h
          refine ⟨t, rest, _, hu, hn, .utf8 ht ?_⟩
          rcases ht.ascii_or with ⟨a, ha, hlt⟩ | hall
          · injection ha with ha
            exact absurd (ha ▸ hlt) hascii
          · rw [any_eq_false]
            intro b hb
            simp [(high_byte (hall b hb)).1]
  · rintro ⟨t, rest, out, rfl, rfl, h⟩
    cases h with
    | escape ht => exact (if_pos rfl).trans (ht.length o rest)
    | utf8 hc hplain =>
      rw [any_cons, Bool.or_eq_false_iff, requiresJsonEscape_eq_false] at hplain
      obtain ⟨⟨hcontrol, -, hback⟩, -⟩ := hplain
      rw [if_neg hback, if_neg hcontrol]
      split
      · rename_i hascii
        rcases hc.ascii_or with ⟨a, ha, -⟩ | hall
        · cases ha
          rfl
        · exact absurd hascii (high_byte (hall ch mem_cons_self)).2.2.2.2
      · rename_i hascii
        exact (continuationLength_eq_ok_iff (UInt8.not_lt.mp hascii)).mpr ⟨t, rest, rfl, rfl, hc⟩

theorem scanCharacters_skip (start : Nat) (checked tail : Bytes) (offset : Nat) (hasEsc : Bool) :
    scanCharacters start checked.length (checked ++ tail) offset hasEsc
      = scanCharacters start 0 tail (offset + checked.length) hasEsc := by
  induction checked generalizing offset with
  | nil => rfl
  | cons b checked ih =>
    rw [length_cons, cons_append, scanCharacters, ih, Nat.add_assoc, Nat.add_comm 1]

theorem JsonCharacter.starts (h : JsonCharacter t out) :
    ∃ ch more, t = ch :: more ∧ ch ≠ byte '"' ∧ t.contains (byte '\\') = (ch == byte '\\') := by
  cases h with
  | utf8 hc hplain =>
    have hback : ∀ b ∈ t, b ≠ byte '"' ∧ b ≠ byte '\\' := fun b hb =>
      (requiresJsonEscape_eq_false.mp (by simpa using any_eq_false.mp hplain b hb)).2
    obtain ⟨ch, more, rfl⟩ : ∃ ch more, t = ch :: more := by
      cases hc <;> exact ⟨_, _, rfl⟩
    have hhead := hback ch mem_cons_self
    refine ⟨ch, more, rfl, hhead.1, ?_⟩
    rw [beq_eq_false_iff_ne.mpr hhead.2, contains_eq_any_beq, any_eq_false]
    intro b hb heq
    exact (hback b hb).2 (eq_of_beq heq).symm
  | escape => exact ⟨_, _, rfl, by decide, by simp⟩

/-- **The characters of a string are scanned to the closing quote.** -/
theorem JsonCharacters.scan (h : JsonCharacters s out) (start : Nat) (rest : Bytes) :
    ∀ offset hasEsc, scanCharacters start 0 (s ++ byte '"' :: rest) offset hasEsc
      = .ok (⟨rest, offset + s.length + 1⟩, hasEsc || s.contains (byte '\\')) := by
  induction h with
  | nil =>
    intro offset hasEsc
    show scanCharacters start 0 (byte '"' :: rest) offset hasEsc = _
    rw [scanCharacters, if_pos rfl]
    simp
  | @cons t s out _ ht hs ih =>
    intro offset hasEsc
    obtain ⟨ch, more, rfl, hquote, hback⟩ := ht.starts
    have hlength := (characterLength_eq_ok_iff (o := offset) hquote).mpr
      ⟨more, s ++ byte '"' :: rest, out, rfl, rfl, ht⟩
    rw [append_assoc, cons_append, scanCharacters, if_neg hquote, hlength]
    dsimp only
    rw [scanCharacters_skip, ih, ← hback]
    simp only [length_append, length_cons, contains_eq_any_beq, any_append,
      Bool.or_assoc]
    congr 3
    omega

/-- **What was scanned to a closing quote are characters.** -/
theorem jsonCharacters_of_scan (start : Nat) : ∀ (n : Nat) {u : Bytes} {offset : Nat}
    {hasEsc : Bool} {r : Cursor × Bool}, u.length ≤ n →
    scanCharacters start 0 u offset hasEsc = .ok r →
    ∃ s out, JsonCharacters s out ∧ u = s ++ byte '"' :: r.1.rest
  | _, [], _, _, _, _, h => by
    rw [scanCharacters] at h
    cases h
  | 0, ch :: u, _, _, _, hn, _ => absurd hn (by simp)
  | n + 1, ch :: u, offset, hasEsc, r, hn, h => by
    rw [scanCharacters] at h
    split at h
    · rename_i hquote
      cases h
      exact ⟨[], [], .nil, by rw [hquote]; rfl⟩
    · rename_i hquote
      split at h
      · cases h
      · rename_i k hk
        obtain ⟨t, rest, out, rfl, rfl, ht⟩ := (characterLength_eq_ok_iff hquote).mp hk
        rw [scanCharacters_skip] at h
        have hlen : rest.length ≤ n := by
          rw [length_cons, length_append] at hn
          omega
        obtain ⟨s, outs, hs, hrest⟩ := jsonCharacters_of_scan start n hlen h
        exact ⟨ch :: t ++ s, _, .cons ht hs, by rw [hrest]; simp⟩

/-- **What is scanned as a string is one.** -/
theorem scanString_eq_ok_iff {hasEsc : Bool} :
    scanString c = .ok (s, hasEsc, c') ↔
      (∃ out, JsonCharacters s out) ∧ hasEsc = s.contains (byte '\\') ∧ c.Moves (quoted s) c' := by
  have hscan : ∀ {s out : Bytes} {c' : Cursor}, JsonCharacters s out → c.Moves (quoted s) c' →
      scanString c = .ok (s, s.contains (byte '\\'), c') := by
    intro s out c' hs h
    obtain ⟨c₁, hopen, h⟩ := h.split_cons
    obtain ⟨c₂, hmove, hclose⟩ := h.split
    have hrest : c₁.rest = s ++ byte '"' :: c'.rest := by rw [hmove.rest, hclose.rest]; rfl
    have htake : (s ++ byte '"' :: c'.rest).length - c'.rest.length - 1 = s.length := by
      rw [length_append, length_cons]
      omega
    have hend : c₁.offset + s.length + 1 = c'.offset := by rw [hclose.offset, hmove.offset]; rfl
    rw [scanString, expect_eq_ok_iff.mpr hopen, ok_bind, hrest, hs.scan, ok_bind, htake, take_left,
      hend]
    rfl
  constructor
  · intro h
    obtain ⟨c₁, hopen, hscanned⟩ := bind_eq_ok_iff.mp h
    obtain ⟨⟨c₂, esc⟩, hmove, hc⟩ := bind_eq_ok_iff.mp hscanned
    obtain ⟨s', out, hs, hrest⟩ := jsonCharacters_of_scan c₁.offset _ (Nat.le_refl _) hmove
    rw [expect_eq_ok_iff] at hopen
    rw [hrest, hs.scan] at hmove
    -- the text is a string of the grammar, so all that its scan returns is known
    have hend : c₁.offset + s'.length + 1 = c₂.offset :=
      congrArg (fun r => r.1.offset) (Except.ok.inj hmove)
    have hquoted : c.Moves (quoted s') c₂ := by
      refine hopen.trans ⟨?_, ?_⟩
      · rw [hrest]
        simp
      · rw [← hend]
        simp [Nat.add_assoc]
    rw [hscan hs hquoted] at h
    cases h
    exact ⟨⟨out, hs⟩, rfl, hquoted⟩
  · rintro ⟨⟨out, hs⟩, rfl, h⟩
    exact hscan hs h

/-! ### Decoding -/

theorem decodeJsonString_plain (errors : DecodeErrors) (h : byte '\\' ∉ t) (s : Bytes)
    (offset : Nat) : decodeJsonString errors (t ++ s) offset =
      (decodeJsonString errors s (offset + t.length)).map (t ++ ·) := by
  induction t generalizing offset with
  | nil =>
    show decodeJsonString errors s offset = _
    cases decodeJsonString errors s offset <;> rfl
  | cons c t ih =>
    rw [mem_cons, not_or] at h
    obtain ⟨hc, ht⟩ := h
    rw [cons_append, decodeJsonString.eq_def]
    dsimp only
    rw [if_pos (Ne.symm hc), ih ht, length_cons, Nat.add_right_comm, Nat.add_assoc]
    cases decodeJsonString errors s _ <;> rfl

theorem length_appendUtf8 (cp : Nat) : (appendUtf8 cp).length ≤ 4 := by
  rw [appendUtf8]
  dsimp only
  split_ifs <;> simp

/-- **One character is decoded**, to no more bytes than it is written with. -/
theorem JsonCharacter.decode (h : JsonCharacter t out) : out.length ≤ t.length ∧
    ∀ errors s offset, decodeJsonString errors (t ++ s) offset =
      (decodeJsonString errors s (offset + t.length)).map (out ++ ·) := by
  cases h with
  | utf8 hc hplain =>
    refine ⟨le_rfl, fun errors s offset => decodeJsonString_plain errors (fun hmem => ?_) s offset⟩
    exact any_eq_false.mp hplain _ hmem (by decide)
  | escape ht =>
    cases ht with
    | @letter e b hb =>
      have hu : e ≠ byte 'u' := by
        rintro rfl
        cases hb.symm.trans (show simpleEscape (byte 'u') = none by decide)
      refine ⟨by simp, fun errors s offset => ?_⟩
      rw [cons_append, singleton_append, decodeJsonString.eq_def]
      simp only [ne_eq, not_true_eq_false, if_false, hu, not_false_eq_true, if_true, hb]
      rfl
    | unit hv hhigh hlow =>
      refine ⟨(length_appendUtf8 _).trans (by simp), fun errors s offset => ?_⟩
      simp only [cons_append, nil_append]
      rw [decodeJsonString.eq_def]
      simp only [ne_eq, not_true_eq_false, if_false, hv, hhigh, hlow]
      rfl
    | pair hv hhigh hl hlow =>
      refine ⟨(length_appendUtf8 _).trans (by simp), fun errors s offset => ?_⟩
      simp only [cons_append, nil_append]
      rw [decodeJsonString.eq_def]
      simp only [ne_eq, not_true_eq_false, if_false, hv, hhigh, hl, hlow, and_self,
        if_true, or_self]
      rfl

/-- **The characters of a string are decoded**, wherever they stand. -/
theorem JsonCharacters.decode (h : JsonCharacters s out) : out.length ≤ s.length ∧
    ∀ errors offset, decodeJsonString errors s offset = .ok out := by
  induction h with
  | nil => exact ⟨le_rfl, fun _ _ => rfl⟩
  | cons ht _ ih =>
    obtain ⟨hlength, hdecode⟩ := ht.decode
    refine ⟨?_, fun errors offset => ?_⟩
    · rw [length_append, length_append]
      exact Nat.add_le_add hlength ih.1
    · rw [hdecode, ih.2]
      rfl

theorem JsonCharacters.stringContent {s out : Bytes} (h : JsonCharacters s out)
    (errors : DecodeErrors)
    (offset : Nat) : stringContent errors s (s.contains (byte '\\')) offset = .ok out := by
  have hdecode := h.decode.2 errors offset
  rw [SchemaSanitizer.stringContent]
  split
  · exact hdecode
  · rename_i hback
    have hplain := decodeJsonString_plain errors (t := s) (by simpa using hback) [] offset
    rw [append_nil, hdecode] at hplain
    rw [hplain]
    show Except.ok s = .ok (s ++ [])
    rw [append_nil]

/-! ### Numbers -/

/-- At least one digit. -/
def Digits (d : Bytes) : Prop := d ≠ [] ∧ ∀ c ∈ d, isDigit c = true

/-- The digits before the point, without a leading zero. -/
inductive IntegerPart : Bytes → Prop
  | zero : IntegerPart [byte '0']
  | digits {d : Bytes} (hd : Digits d) (hzero : d.head? ≠ some (byte '0')) : IntegerPart d

/-- The point and its digits. -/
inductive FractionPart : Bytes → Prop
  | absent : FractionPart []
  | point {d : Bytes} (hd : Digits d) : FractionPart (byte '.' :: d)

/-- The letter, a sign and the digits of an exponent. -/
inductive ExponentPart : Bytes → Prop
  | absent : ExponentPart []
  | power {e : UInt8} {sign d : Bytes} (he : e = byte 'e' ∨ e = byte 'E')
      (hsign : sign = [] ∨ sign = [byte '+'] ∨ sign = [byte '-']) (hd : Digits d) :
      ExponentPart (e :: (sign ++ d))

/-- A number. -/
inductive NumberText : Bytes → Prop
  | mk {sign i f x : Bytes} (hsign : sign = [] ∨ sign = [byte '-']) (hi : IntegerPart i)
      (hf : FractionPart f) (hx : ExponentPart x) : NumberText (sign ++ (i ++ (f ++ x)))

section Numbers

variable {c c' : Cursor}

theorem digits_takeWhile {rest : Bytes} (h : (rest.head?.map isDigit).getD false = true) :
    Digits (rest.takeWhile isDigit) := by
  refine ⟨?_, fun _ hc => mem_takeWhile_imp hc⟩
  cases rest with
  | nil => cases h
  | cons a rest =>
    have hdigit : isDigit a = true := h
    rw [takeWhile_cons_of_pos hdigit]
    exact cons_ne_nil _ _

theorem moves_requireDigits {message : String} (h : requireDigits c message = .ok c') :
    ∃ d, Digits d ∧ c.Moves d c' := by
  rw [requireDigits] at h
  split at h
  · rename_i hhead
    cases h
    exact ⟨_, digits_takeWhile hhead, .takeWhile c isDigit⟩
  · cases h

theorem moves_integerPart (h : consumeIntegerPart c = .ok c') : ∃ i, IntegerPart i ∧
    c.Moves i c' := by
  obtain ⟨rest, offset⟩ := c
  rw [consumeIntegerPart] at h
  split at h
  · cases h
  · rename_i d rest heq
    cases heq
    split at h
    · rename_i hzero
      cases h
      exact ⟨[byte '0'], .zero, .head (by rw [hzero]; rfl)⟩
    · rename_i hzero
      split at h
      · rename_i hdigit
        cases h
        refine ⟨(d :: rest).takeWhile isDigit, .digits (digits_takeWhile hdigit) ?_,
          .takeWhile _ isDigit⟩
        rw [takeWhile_cons_of_pos hdigit]
        simpa using hzero
      · cases h

theorem moves_fractionPart (h : consumeFractionPart c = .ok c') : ∃ f, FractionPart f ∧
    c.Moves f c' := by
  rw [consumeFractionPart] at h
  split at h
  · rename_i hpoint
    obtain ⟨d, hd, hmoves⟩ := moves_requireDigits h
    exact ⟨_, .point hd, (Cursor.Moves.head hpoint).trans hmoves⟩
  · cases h
    exact ⟨[], .absent, .refl c⟩

theorem moves_exponentPart (h : consumeExponentPart c = .ok c') : ∃ x, ExponentPart x ∧
    c.Moves x c' := by
  rw [consumeExponentPart] at h
  split at h
  · rename_i hletter
    obtain ⟨e, he, hhead⟩ : ∃ e, (e = byte 'e' ∨ e = byte 'E') ∧ c.rest.head? = some e := by
      rcases hletter with h | h
      · exact ⟨_, .inl rfl, h⟩
      · exact ⟨_, .inr rfl, h⟩
    obtain ⟨d, hd, hdigits⟩ := moves_requireDigits h
    obtain ⟨sign, hsign, hmove⟩ : ∃ sign, (sign = [] ∨ sign = [byte '+'] ∨ sign = [byte '-']) ∧
        (c.advance 1).Moves sign (if (c.advance 1).rest.head? = some (byte '+') ∨
          (c.advance 1).rest.head? = some (byte '-') then (c.advance 1).advance 1 else
            c.advance 1) := by
      split
      · rename_i hsigned
        rcases hsigned with h | h
        · exact ⟨_, .inr (.inl rfl), .head h⟩
        · exact ⟨_, .inr (.inr rfl), .head h⟩
      · exact ⟨_, .inl rfl, .refl _⟩
    exact ⟨_, .power he hsign hd, (Cursor.Moves.head hhead).trans (hmove.trans hdigits)⟩
  · cases h
    exact ⟨[], .absent, .refl c⟩

/-- **What was skipped as a number is one.** -/
theorem moves_number (h : skipNumber c = .ok c') : ∃ n, NumberText n ∧ c.Moves n c' := by
  obtain ⟨c₁, hi, h⟩ := bind_eq_ok_iff.mp h
  obtain ⟨c₂, hf, hx⟩ := bind_eq_ok_iff.mp h
  obtain ⟨sign, hsign, hminus⟩ : ∃ sign, (sign = [] ∨ sign = [byte '-']) ∧
      c.Moves sign (consumeOptionalMinus c) := by
    rw [consumeOptionalMinus]
    split
    · rename_i hhead
      exact ⟨_, .inr rfl, .head hhead⟩
    · exact ⟨_, .inl rfl, .refl c⟩
  obtain ⟨i, hi, hmi⟩ := moves_integerPart hi
  obtain ⟨f, hf, hmf⟩ := moves_fractionPart hf
  obtain ⟨x, hx, hmx⟩ := moves_exponentPart hx
  exact ⟨_, .mk hsign hi hf hx, hminus.trans (hmi.trans (hmf.trans hmx))⟩

theorem Digits.starts {d : Bytes} (h : Digits d) : ∃ a more, d = a :: more ∧ isDigit a = true := by
  obtain ⟨a, more, rfl⟩ := exists_cons_of_ne_nil h.1
  exact ⟨a, more, rfl, h.2 a mem_cons_self⟩

/-- No digit is next. -/
abbrev NoDigit (rest : Bytes) : Prop := Next (!isDigit ·) rest

theorem Digits.require {d : Bytes} (hd : Digits d) (h : c.Moves d c') (hnext : NoDigit c'.rest)
    (message : String) : requireDigits c message = .ok c' := by
  obtain ⟨a, more, rfl, ha⟩ := hd.starts
  rw [requireDigits, h.head?, consumeDigits, advance_takeWhile h hd.2 hnext]
  exact if_pos ha

theorem IntegerPart.consume {i : Bytes} (hi : IntegerPart i) (h : c.Moves i c')
    (hnext : NoDigit c'.rest) :
    consumeIntegerPart c = .ok c' := by
  rw [consumeIntegerPart, h.rest]
  cases hi with
  | zero => exact congrArg Except.ok h.advance
  | digits hd hzero =>
    obtain ⟨a, more, rfl, ha⟩ := hd.starts
    have hne : a ≠ byte '0' := by simpa using hzero
    dsimp only [cons_append]
    rw [if_neg hne, if_pos ha, consumeDigits, advance_takeWhile h hd.2 hnext]

theorem FractionPart.consume {f : Bytes} (hf : FractionPart f) (h : c.Moves f c')
    (hnext : NoDigit c'.rest) (hpoint : c'.rest.head? ≠ some (byte '.')) :
    consumeFractionPart c = .ok c' := by
  rw [consumeFractionPart]
  cases hf with
  | absent =>
    obtain rfl : c = c' := h.advance
    exact if_neg hpoint
  | point hd =>
    obtain ⟨c₁, hdot, h⟩ := h.split_cons
    obtain rfl : c.advance 1 = c₁ := hdot.advance
    rw [if_pos hdot.head?, hd.require h hnext]

theorem ExponentPart.consume {x : Bytes} (hx : ExponentPart x) (h : c.Moves x c')
    (hnext : NoDigit c'.rest)
    (hletter : ¬ (c'.rest.head? = some (byte 'e') ∨ c'.rest.head? = some (byte 'E'))) :
    consumeExponentPart c = .ok c' := by
  rw [consumeExponentPart]
  cases hx with
  | absent =>
    obtain rfl : c = c' := h.advance
    exact if_neg hletter
  | power he hsign hd =>
    obtain ⟨c₁, hfirst, hrest⟩ := h.split_cons
    obtain ⟨c₂, hmove, hdigits⟩ := hrest.split
    obtain rfl : c.advance 1 = c₁ := hfirst.advance
    have hrequire := hd.require hdigits hnext "JSON parse error: invalid exponent at byte "
    rw [if_pos (he.imp (fun he => he ▸ hfirst.head?) fun he => he ▸ hfirst.head?), ← hrequire]
    dsimp only
    congr 1
    rcases hsign with rfl | rfl | rfl
    · obtain ⟨a, more, rfl, ha⟩ := hd.starts
      obtain rfl : c.advance 1 = c₂ := hmove.advance
      rw [hdigits.head?]
      exact if_neg (by rintro (h | h) <;> cases h <;> revert ha <;> decide)
    · exact (if_pos (.inl hmove.head?)).trans hmove.advance
    · exact (if_pos (.inr hmove.head?)).trans hmove.advance

theorem delimiter_byte {c : UInt8} (h : isPrimitiveDelim c = true) :
    isDigit c = false ∧ c ≠ byte '.' ∧ c ≠ byte 'e' ∧ c ≠ byte 'E' := by
  revert h
  exact forall_byte (by decide +kernel) c

/-- **A number is skipped to its end** before a delimiter. -/
theorem NumberText.skip {n : Bytes} (hn : NumberText n) (h : c.Moves n c')
    (hnext : AtDelimiter c'.rest) :
    skipNumber c = .ok c' := by
  obtain ⟨hsign, hi, hf, hx⟩ := hn
  obtain ⟨c₁, hms, h⟩ := h.split
  obtain ⟨c₂, hmi, h⟩ := h.split
  obtain ⟨c₃, hmf, hmx⟩ := h.split
  have hend : ∀ b, c'.rest.head? = some b → _ := fun b hb => delimiter_byte (hnext b hb)
  -- after the fraction: a letter, or the delimiter
  have hfraction : NoDigit c₃.rest ∧ c₃.rest.head? ≠ some (byte '.') := by
    rw [hmx.rest]
    cases hx with
    | absent => exact ⟨fun b hb => by simp [(hend b hb).1], fun hb => (hend _ hb).2.1 rfl⟩
    | power he =>
      rcases he with rfl | rfl
      · exact ⟨next_cons (by decide) _, show some (byte 'e') ≠ some (byte '.') by decide⟩
      · exact ⟨next_cons (by decide) _, show some (byte 'E') ≠ some (byte '.') by decide⟩
  have hinteger : NoDigit c₂.rest := by
    rw [hmf.rest]
    cases hf with
    | absent => exact hfraction.1
    | point => exact next_cons (by decide) _
  have hminus : consumeOptionalMinus c = c₁ := by
    rw [consumeOptionalMinus]
    rcases hsign with rfl | rfl
    · obtain rfl : c = c₁ := hms.advance
      refine if_neg ?_
      cases hi with
      | zero => rw [hmi.head?]; decide
      | digits hd =>
        obtain ⟨a, more, rfl, ha⟩ := hd.starts
        rw [hmi.head?]
        rintro ⟨⟩
        revert ha
        decide
    · exact (if_pos hms.head?).trans hms.advance
  rw [skipNumber, hminus, hi.consume hmi hinteger, ok_bind,
    hf.consume hmf hfraction.1 hfraction.2, ok_bind]
  refine hx.consume hmx (fun b hb => by simp [(hend b hb).1]) ?_
  rintro (hb | hb)
  · exact (hend _ hb).2.2.1 rfl
  · exact (hend _ hb).2.2.2 rfl

end Numbers

end SchemaSanitizer
