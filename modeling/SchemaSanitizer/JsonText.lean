/-
SchemaSanitizer/JsonText.lean

The JSON texts that the writers print.

`JsonText d text` is the grammar of compact JSON with containers nested at most
`d` deep: strings of valid UTF-8, integers, literals, arrays and objects, without
white space.  Such a text is a value of the JSON grammar (`JsonText.valueText`), so
that the scanner moves past it, and a written string decodes to what was written.
-/
import SchemaSanitizer.JsonGrammar

namespace SchemaSanitizer

open Lib List

/-! ### Strings -/

/-- The text of a string between its quotes. -/
def escaped (s : Bytes) : Bytes := s.flatMap escapeByte

theorem jsonString_eq (s : Bytes) : jsonString s = quoted (escaped s) := rfl

theorem jsonCharacter_escapeByte {a : UInt8} (ha : a < 0x80) :
    JsonCharacter (escapeByte a) [a] := by
  have hcases : (escapeByte a = [a] ∧ requiresJsonEscape a = false) ∨
      (∃ e ∈ bytes "\"\\bfnrt", escapeByte a = [byte '\\', e] ∧ simpleEscape e = some a) ∨
      (a.toNat < 32 ∧ ∃ h ∈ bytes "01", ∃ h' ∈ bytes "0123456789abcdef",
        escapeByte a = [byte '\\', byte 'u', byte '0', byte '0', h, h'] ∧
          decodeHexQuad (byte '0') (byte '0') h h' = some a.toNat) := by
    revert ha
    exact forall_byte (by decide +kernel) a
  rcases hcases with ⟨h, hplain⟩ | ⟨e, -, h, he⟩ | ⟨hlt, h, -, h', -, heq, hquad⟩
  · rw [h]
    exact .utf8 (.ascii ha) (by simp [hplain])
  · rw [h]
    exact .escape (.letter he)
  · have hout : appendUtf8 a.toNat = [a] := by
      rw [appendUtf8]
      simp only [show a.toNat ≤ 0x7F by omega, if_true, UInt8.ofNat_toNat]
    rw [heq, ← hout]
    exact .escape (.unit hquad (by omega) (by omega))

theorem escapeByte_high {b : UInt8} (h : 0x80 ≤ b) : escapeByte b = [b] := by
  revert h
  exact forall_byte (by decide +kernel) b

/-- **A written string has the characters of a JSON string**, and stands for what was
written. -/
theorem jsonCharacters_escaped {s : Bytes} (h : ValidUtf8 s) : JsonCharacters (escaped s) s := by
  induction h with
  | nil => exact .nil
  | @cons c s hc hs ih =>
    rw [escaped, flatMap_append]
    rcases hc.ascii_or with ⟨a, rfl, ha⟩ | hhigh
    · rw [flatMap_singleton]
      exact .cons (jsonCharacter_escapeByte ha) ih
    · -- beyond ASCII a character is written as it is
      have hplain : c.any requiresJsonEscape = false := by
        rw [any_eq_false]
        intro b hb
        simp [(high_byte (hhigh b hb)).1]
      rw [flatMap_congr fun b hb => escapeByte_high (hhigh b hb), flatMap_singleton']
      exact .cons (.utf8 hc hplain) ih

/-- **The codec of strings.**  The token that is written for a valid string is scanned up
to its end and decoded to that string, and no scanned token is decoded to more bytes
than its contents have: the buffer of the decoder is large enough. -/
theorem jsonString_codec :
    (∀ s, ValidUtf8 s → ∀ rest offset, ∃ content hasEsc, jsonString s = quoted content ∧
      scanString ⟨jsonString s ++ rest, offset⟩
        = .ok (content, hasEsc, ⟨rest, offset + (jsonString s).length⟩) ∧
      ∀ errors base, decodeJsonString errors content base = .ok s) ∧
    ∀ c content hasEsc c', scanString c = .ok (content, hasEsc, c') →
      ∃ out : Bytes, out.length ≤ content.length ∧
        ∀ errors base, decodeJsonString errors content base = .ok out := by
  constructor
  · intro s hs rest offset
    have hchars := jsonCharacters_escaped hs
    exact ⟨escaped s, _, rfl, scanString_eq_ok_iff.mpr ⟨⟨s, hchars⟩, rfl, .start _ rest offset⟩,
      hchars.decode.2⟩
  · intro c content hasEsc c' h
    obtain ⟨⟨out, hs⟩, -⟩ := scanString_eq_ok_iff.mp h
    exact ⟨out, hs.decode⟩

theorem jsonString_codec_tab :
    (∃ content hasEsc, jsonString [9] = quoted content ∧
      scanString ⟨jsonString [9] ++ [], 0⟩ = .ok (content, hasEsc,
        ⟨[], 0 + (jsonString [9]).length⟩) ∧
      ∀ errors base, decodeJsonString errors content base = .ok [9]) ∧
    ∃ out : Bytes, out.length ≤ 2 ∧
      ∀ errors base, decodeJsonString errors [byte '\\', byte 't'] base = .ok out := by
  constructor
  · exact jsonString_codec.1 [9] (.cons (.ascii (by decide)) .nil) [] 0
  · exact jsonString_codec.2 ⟨jsonString [9], 0⟩ _ true ⟨[], 4⟩ (by rfl)

/-! ### Numbers -/

theorem decimal_head {n : Nat} (hn : n ≠ 0) : ∃ d more, decimal n = d :: more ∧ d ≠ byte '0' := by
  obtain ⟨low, top, hdigits⟩ := eq_nil_or_concat (Nat.digits 10 n) |>.resolve_left
    (Nat.digits_ne_nil_iff_ne_zero.mpr hn)
  rw [concat_eq_append] at hdigits
  have htop : top ≠ 0 := by
    have h := Nat.getLast_digit_ne_zero 10 hn
    simpa [hdigits] using h
  have hlt : top < 10 :=
    Nat.digits_lt_base (by norm_num) (show top ∈ Nat.digits 10 n by simp [hdigits])
  refine ⟨UInt8.ofNat (48 + top), low.reverse.map fun d => UInt8.ofNat (48 + d), ?_, ?_⟩
  · rw [decimal, if_neg hn, hdigits, reverse_concat, map_cons]
  · interval_cases top
    · exact absurd rfl htop
    all_goals decide

theorem numberText_jsonInt (n : Int) : NumberText (jsonInt n) := by
  have hinteger : ∀ m, IntegerPart (decimal m) := by
    intro m
    by_cases hm : m = 0
    · subst hm
      exact .zero
    · obtain ⟨d, more, hd, hzero⟩ := decimal_head hm
      refine .digits ⟨decimal_ne_nil m, fun c hc => decimal_isDigit hc⟩ ?_
      rw [hd]
      simpa using hzero
  have hnumber : ∀ m sign, sign = [] ∨ sign = [byte '-'] → NumberText (sign ++ decimal m) := by
    intro m sign hsign
    have h := NumberText.mk hsign (hinteger m) .absent .absent
    rwa [append_nil, append_nil] at h
  rw [jsonInt]
  split
  · exact hnumber n.natAbs _ (.inr rfl)
  · exact hnumber n.toNat [] (.inl rfl)

/-! ### The grammar -/

/-- The members of an object, as they are written. -/
def memberTexts (members : List (Bytes × Bytes)) : List Bytes :=
  members.map fun m => jsonMember m.1 m.2

/-- **Compact JSON**, with containers nested at most `d` deep. -/
inductive JsonText : Nat → Bytes → Prop
  | null (d : Nat) : JsonText d (bytes "null")
  | bool (d : Nat) (b : Bool) : JsonText d (jsonBool b)
  | int (d : Nat) {n : Int} (hlo : int64Min ≤ n) (hhi : n ≤ int64Max) : JsonText d (jsonInt n)
  | string (d : Nat) {s : Bytes} (hs : ValidUtf8 s) : JsonText d (jsonString s)
  | array {d : Nat} {items : List Bytes} (hitems : ∀ i ∈ items, JsonText d i) :
      JsonText (d + 1) (jsonArray items)
  | object {d : Nat} {members : List (Bytes × Bytes)}
      (hcount : members.length ≤ maxJsonObjectFields)
      (hkeys : ∀ m ∈ members, ValidUtf8 m.1) (hvalues : ∀ m ∈ members, JsonText d m.2) :
      JsonText (d + 1) (jsonObject (memberTexts members))

theorem JsonText.mono {d d' : Nat} {text : Bytes} (h : JsonText d text) (hle : d ≤ d') :
    JsonText d' text := by
  induction h generalizing d' with
  | null => exact .null d'
  | bool _ b => exact .bool d' b
  | int _ hlo hhi => exact .int d' hlo hhi
  | string _ hs => exact .string d' hs
  | array _ ih =>
    obtain ⟨e, rfl⟩ : ∃ e, d' = e + 1 := ⟨d' - 1, by omega⟩
    exact .array fun i hi => ih i hi (by omega)
  | object hcount hkeys _ ih =>
    obtain ⟨e, rfl⟩ : ∃ e, d' = e + 1 := ⟨d' - 1, by omega⟩
    exact .object hcount hkeys fun m hm => ih m hm (by omega)

/-! ### Compact texts are values -/

theorem jsonSequence_cons (x : Bytes) {items : List Bytes} (h : items ≠ []) :
    jsonSequence (x :: items) = x ++ byte ',' :: jsonSequence items := by
  obtain ⟨y, items, rfl⟩ := exists_cons_of_ne_nil h
  rfl

theorem jsonSequence_singleton (x : Bytes) : jsonSequence [x] = x := append_nil x

section Containers

variable {α : Type} {I : α → Bytes → Prop} {text : α → Bytes} {last : UInt8} {V : Bytes → Prop}

theorem itemsText_jsonSequence : ∀ {xs : List α}, xs ≠ [] → (∀ x ∈ xs, I x (text x)) →
    ItemsText I last xs (jsonSequence (xs.map text) ++ [last])
  | [], hne, _ => absurd rfl hne
  | [x], _, hx => by
    rw [map_singleton, jsonSequence_singleton]
    exact .last (w := []) (hx x mem_cons_self) blank_nil
  | x :: y :: xs, _, hx => by
    have hrest : ItemsText I last (y :: xs) _ :=
      itemsText_jsonSequence (cons_ne_nil _ _) fun z hz => hx z (mem_cons_of_mem _ hz)
    have hall := ItemsText.more (w := []) (hx x mem_cons_self) blank_nil blank_nil hrest
    rw [map_cons, jsonSequence_cons _ (by simp), append_assoc]
    exact hall

theorem containerText_jsonSequence (first : UInt8) {xs : List α} (hx : ∀ x ∈ xs, I x (text x)) :
    ContainerText I first last xs (first :: (jsonSequence (xs.map text) ++ [last])) := by
  cases xs with
  | nil => exact .empty (w := []) blank_nil
  | cons x xs => exact .items (w := []) blank_nil (itemsText_jsonSequence (cons_ne_nil _ _) hx)

theorem arrayText_jsonArray {items : List Bytes} (hi : ∀ i ∈ items, V i) :
    ArrayText V items (jsonArray items) := by
  have h : ArrayText V items (byte '[' :: (jsonSequence (items.map id) ++ [byte ']'])) :=
    containerText_jsonSequence _ fun i h => ⟨hi i h, rfl⟩
  rwa [map_id] at h

theorem objectText_jsonObject {members : List (Bytes × Bytes)}
    (hm : ∀ m ∈ members, ValidUtf8 m.1 ∧ V m.2) :
    ObjectText V members (jsonObject (memberTexts members)) := by
  refine containerText_jsonSequence (byte '\x7b') fun m h => ?_
  have hmember : MemberText V m (quoted (escaped m.1) ++ ([] ++ byte ':' :: ([] ++ m.2))) :=
    .mk (jsonCharacters_escaped (hm m h).1) blank_nil blank_nil (hm m h).2
  simpa [jsonMember, jsonString_eq] using hmember

end Containers

/-- **Compact JSON is JSON**, with room for its containers. -/
theorem JsonText.valueText {d : Nat} {text : Bytes} (h : JsonText d text) :
    ∀ {room : Nat}, d ≤ room → ValueText room text := by
  induction h with
  | null => exact fun _ => .scalar .null
  | bool d b =>
    intro room _
    cases b with
    | false => exact .scalar .false
    | true => exact .scalar .true
  | int => exact fun _ => .scalar (.number (numberText_jsonInt _))
  | string _ hs => exact fun _ => .scalar (.string (jsonCharacters_escaped hs))
  | array hitems ih =>
    intro room hle
    obtain ⟨room, rfl⟩ : ∃ r, room = r + 1 := ⟨room - 1, by omega⟩
    exact .inr (.inr ⟨_, arrayText_jsonArray fun i hi => ih i hi (by omega)⟩)
  | object hcount hkeys hvalues ih =>
    intro room hle
    obtain ⟨room, rfl⟩ : ∃ r, room = r + 1 := ⟨room - 1, by omega⟩
    exact .inr (.inl ⟨_, hcount, objectText_jsonObject fun m hm =>
      ⟨hkeys m hm, ih m hm (by omega)⟩⟩)

end SchemaSanitizer
