/-
SchemaSanitizer/JsonView.lean

What the reader finds in compact JSON.

Every such text has a value, wherever it stands (`JsonText.parses`), and `Shows`
forgets where.  The two loops over a container get an invariant rule each
(`forEachArrayElement_items`, `forEachObjectField_members`): the invariant relates
the texts that are still to come with the state of the callback.  In particular
`object_member` finds the last member of a name (`objectMember_last`).
-/
import SchemaSanitizer.JsonText
import SchemaSanitizer.RegistryDecode

namespace SchemaSanitizer

open Lib List

/-! ### Values -/

variable {text : Bytes} {d : Nat}

section Parsing

variable (isFloat : Bytes → Bool)

/-- `view` is what the reader finds in `text`, at some offset. -/
def Shows (text : Bytes) (view : ValueView) : Prop :=
  ∃ base, parseValue isFloat text base = .ok view

theorem expectEnd_nil {α : Type} (offset : Nat) (value : α) :
    expectEnd ⟨[], offset⟩ value = .ok value := rfl

theorem moves_to_end (text : Bytes) (offset : Nat) :
    (⟨text, offset⟩ : Cursor).Moves text ⟨[], offset + text.length⟩ :=
  ⟨(append_nil text).symm, rfl⟩

theorem StartsValue.skipWs_self (h : StartsValue text) (offset : Nat) :
    skipWs ⟨text, offset⟩ = ⟨text, offset⟩ :=
  blank_nil.skipWs (.refl _) h.next

theorem JsonText.accepted (h : JsonText d text)
    (hd : d ≤ maxJsonNestingDepth) : Accepted skipValue text :=
  ValueText.accepted maxJsonNestingDepth text (h.valueText hd)

theorem parseValue_jsonString {s : Bytes} (h : ValidUtf8 s) (base : Nat) :
    parseValue isFloat (jsonString s) base = .ok (.string s) := by
  have hchars := jsonCharacters_escaped h
  have hscan := scanString_eq_ok_iff.mpr ⟨⟨s, hchars⟩, rfl, moves_to_end (jsonString s) base⟩
  rw [parseValue, ((JsonText.string 0 h).accepted (Nat.zero_le _)).1.skipWs_self]
  show parseStringValue ⟨jsonString s, base⟩ = _
  rw [parseStringValue, hscan]
  simp only [ok_bind, expectEnd_nil, hchars.stringContent]

theorem parseValue_jsonBool (b : Bool) (base : Nat) :
    parseValue isFloat (jsonBool b) base = .ok (.bool b) := by
  cases b <;> rfl

theorem parseContainerValue_eq (h : JsonText d text)
    (hd : d ≤ maxJsonNestingDepth) (view : Bytes → Nat → ValueView) (base : Nat) :
    parseContainerValue view ⟨text, base⟩ = .ok (view text base) := by
  rw [parseContainerValue, (h.accepted hd).2 _ _ (moves_to_end text base) (next_nil _), ok_bind,
    expectEnd_nil]
  simp

theorem parseValue_jsonObject {members : List Bytes} (h : JsonText d (jsonObject members))
    (hd : d ≤ maxJsonNestingDepth) (base : Nat) :
    parseValue isFloat (jsonObject members) base = .ok (.object (jsonObject members) base) := by
  rw [parseValue, (h.accepted hd).1.skipWs_self]
  exact parseContainerValue_eq h hd .object base

theorem parseValue_jsonArray {items : List Bytes} (h : JsonText d (jsonArray items))
    (hd : d ≤ maxJsonNestingDepth) (base : Nat) :
    parseValue isFloat (jsonArray items) base = .ok (.array (jsonArray items) base) := by
  rw [parseValue, (h.accepted hd).1.skipWs_self]
  exact parseContainerValue_eq h hd .array base

theorem fromChars_jsonInt {n : Int} (hlo : int64Min ≤ n) (hhi : n ≤ int64Max) :
    fromChars int64Min int64Max (jsonInt n) = some (n, []) := by
  by_cases hn : n < 0
  · have hvalue : -(n.natAbs : Int) = n := by omega
    rw [jsonInt, if_pos hn, singleton_append,
      fromChars_minus _ _ (decimal_ne_nil _) fun c hc => decimal_isDigit hc,
      digitsValue_decimal, hvalue, if_pos ⟨hlo, hhi⟩]
  · have hvalue : (n.toNat : Int) = n := by omega
    have hread : fromChars int64Min int64Max (decimal n.toNat ++ []) = _ :=
      fromChars_decimal int64Max n.toNat (by decide) (by rintro _ ⟨⟩)
    rw [append_nil, hvalue, if_pos hhi] at hread
    rw [jsonInt, if_neg hn, hread]

theorem parseValue_jsonInt {n : Int} (hlo : int64Min ≤ n) (hhi : n ≤ int64Max) (base : Nat) :
    parseValue isFloat (jsonInt n) base = .ok (.int n) := by
  have hnumber := numberText_jsonInt n
  obtain ⟨c, more, hn, hc⟩ := hnumber.starts
  obtain ⟨-, -, h1, h2, h3, h4, h5, h6⟩ := number_byte hc
  have hparse : parseNumberValue isFloat ⟨jsonInt n, base⟩ = .ok (.int n) := by
    rw [parseNumberValue, hnumber.skip (moves_to_end (jsonInt n) base) (next_nil _)]
    simp only [ok_bind, expectEnd_nil, length_nil, Nat.sub_zero, take_length,
      fromChars_jsonInt hlo hhi]
  rw [parseValue, (ScalarText.number hnumber).startsValue.skipWs_self, ← hparse]
  simp only [hn, h1, h2, h3, h4, h5, h6, hc, if_false, if_true]

/-- **Compact JSON has a value**, wherever it stands. -/
theorem JsonText.parses (h : JsonText d text)
    (hd : d ≤ maxJsonNestingDepth) (base : Nat) :
    ∃ view, parseValue isFloat text base = .ok view := by
  cases h with
  | null => exact ⟨.null, rfl⟩
  | bool _ b => exact ⟨_, parseValue_jsonBool isFloat b base⟩
  | int _ hlo hhi => exact ⟨_, parseValue_jsonInt isFloat hlo hhi base⟩
  | string _ hs => exact ⟨_, parseValue_jsonString isFloat hs base⟩
  | array hitems => exact ⟨_, parseValue_jsonArray isFloat (.array hitems) hd base⟩
  | object hcount hkeys hvalues =>
    exact ⟨_, parseValue_jsonObject isFloat (.object hcount hkeys hvalues) hd base⟩

theorem JsonText.parseChildValue {v : Bytes} (h : JsonText maxJsonNestingDepth v) {c c' : Cursor}
    (hmove : c.Moves v c') (hnext : AtDelimiter c'.rest) :
    ∃ view, Shows isFloat v view ∧ parseChildValue isFloat c = .ok (view, c') := by
  obtain ⟨view, hview⟩ := h.parses isFloat le_rfl c.offset
  refine ⟨view, ⟨c.offset, hview⟩, ?_⟩
  rw [SchemaSanitizer.parseChildValue, (h.accepted le_rfl).2 c c' hmove hnext, ok_bind,
    hmove.take, hview]
  rfl

/-! ### Iteration -/

variable {σ : Type}

/-- The text of an error of a reader at an offset. -/
def viewErrorAt (message : String) (offset : Nat) : Bytes :=
  bytes message ++ bytes " at byte " ++ decimal offset

/-- `ParseObjectKey`, the colon and `ParseChildValue`. -/
def parseMember (c : Cursor) : Parsed ((Bytes × ValueView) × Cursor) := do
  let key ← parseObjectKey c
  let c ← expect (skipWs key.2) (byte ':')
  let value ← parseChildValue isFloat (skipWs c)
  .ok ((key.1, value.1), value.2)

/-- The loop of `ForEachObjectFieldC`. -/
def fieldLoop : ItemLoop (Bytes × ValueView) where
  item := parseMember isFloat
  last := byte '\x7d'
  full := fun _ => bytes "JSON object field count exceeds safety limit: " ++
    decimal (maxJsonObjectFields + 1) ++ bytes " > " ++ decimal maxJsonObjectFields
  unterminated := viewErrorAt "JSON parse error: unterminated object"
  expected := viewErrorAt "JSON parse error: expected ',' or '\x7d'"

/-- The loop of `ForEachArrayElementC`. -/
def valueLoop : ItemLoop ValueView where
  item := parseChildValue isFloat
  last := byte ']'
  full := viewErrorAt "JSON parse error: unterminated array"
  unterminated := viewErrorAt "JSON parse error: unterminated array"
  expected := viewErrorAt "JSON parse error: expected ',' or ']'"

theorem forEachMember_eq (visit : σ → Bytes → ValueView → Parsed σ) (fields : Nat)
    (c : Cursor) (s : σ) :
    forEachMember isFloat visit fields c s =
      (fieldLoop isFloat).run (fun s f => visit s f.1 f.2) fields c s >>= fun r => .ok r.1 := by
  induction fields generalizing c s with
  | zero => rfl
  | succ fields ih =>
    have hitem : (fieldLoop isFloat).item c = parseMember isFloat c := rfl
    rw [forEachMember, ItemLoop.run, hitem, parseMember]
    simp only [bind_assoc, ok_bind, ih]
    congr! 9 with key c value s
    funext r
    split
    · rfl
    · rfl

theorem forEachElement_eq (visit : σ → ValueView → Parsed σ) (fuel : Nat) (c : Cursor) (s : σ) :
    forEachElement isFloat visit fuel c s =
      (valueLoop isFloat).run visit fuel c s >>= fun r => .ok r.1 := by
  induction fuel generalizing c s with
  | zero => rfl
  | succ fuel ih =>
    rw [forEachElement, ItemLoop.run]
    simp only [bind_assoc, ih]
    congr! 5 with x s
    funext r
    split
    · rfl
    · rfl

/-- **The loop over a container that stands by itself**: it has no items, or the loop
visits them all. -/
theorem ItemLoop.visit_text {α β : Type} {l : ItemLoop β} (hlast : isClosing l.last = true)
    {I : α → Bytes → Prop} {R : α → β → Prop} (hreads : l.Reads I R) {visit : σ → β → Parsed σ}
    {J : List α → σ → Prop}
    (hvisit : ∀ x xs s y, J (x :: xs) s → R x y → ∃ s', visit s y = .ok s' ∧ J xs s')
    {first : UInt8} {xs : List α} {t : Bytes} (h : ContainerText I first l.last xs t) {s : σ}
    (hJ : J xs s)
    (base : Nat) {c₁ : Cursor} (hc : skipWs (Cursor.advance ⟨t, base⟩ 1) = c₁) :
    (c₁.rest.head? = some l.last ∧ J [] s) ∨
      (c₁.rest.head? ≠ some l.last ∧ xs.length ≤ c₁.rest.length ∧ ∀ rounds, xs.length ≤ rounds →
        ∃ s' c', l.run visit rounds c₁ s = .ok (s', c') ∧ J [] s') := by
  subst hc
  rcases (h.enter (fun x t h => (hreads x t h).1) hlast (moves_to_end t base)).2 with
    ⟨rfl, hend⟩ | ⟨hne, u, hxs, hitems⟩
  · exact .inl ⟨hend.head?, hJ⟩
  · refine .inr ⟨hne, ?_, fun rounds hrounds => ?_⟩
    · rw [hitems.rest, append_nil]
      exact hxs.length_le
    · obtain ⟨s', hrun, hJ'⟩ := run_text hlast hreads hvisit hxs hrounds hitems hJ
      exact ⟨s', _, hrun, hJ'⟩

/-- **Invariant rule for the loop over an array**: `J` relates the elements that are still
to come with the state of the callback. -/
theorem forEachArrayElement_items {visit : σ → ValueView → Parsed σ} {J : List Bytes → σ → Prop}
    (hvisit : ∀ i items s view, J (i :: items) s → Shows isFloat i view →
      ∃ s', visit s view = .ok s' ∧ J items s')
    {items : List Bytes} (hi : ∀ i ∈ items, JsonText maxJsonNestingDepth i) (base : Nat) {s : σ}
    (hJ : J items s) :
    ∃ s', forEachArrayElement isFloat visit (jsonArray items) base s = .ok s' ∧ J [] s' := by
  have hreads : (valueLoop isFloat).Reads (fun v t => JsonText maxJsonNestingDepth v ∧ t = v)
      (Shows isFloat) := by
    rintro _ v ⟨hv, rfl⟩
    exact ⟨(hv.accepted le_rfl).1, fun c c' hmove hnext => hv.parseChildValue isFloat hmove hnext⟩
  have hws : skipWs ⟨jsonArray items, base⟩ = ⟨jsonArray items, base⟩ :=
    StartsValue.skipWs_self ⟨_, _, rfl, by decide, by decide⟩ base
  have hhead : ¬ (jsonArray items).head? ≠ some (byte '[') := not_not.mpr rfl
  rw [forEachArrayElement, hws]
  dsimp only
  rw [if_neg hhead]
  rcases ItemLoop.visit_text rfl hreads hvisit (arrayText_jsonArray hi) hJ base rfl with
    ⟨hlast, hJ'⟩ | ⟨hne, hlen, hrun⟩
  · exact ⟨s, if_pos hlast, hJ'⟩
  · obtain ⟨s', c', hrun, hJ'⟩ := hrun (_ + 1) (Nat.le_succ_of_le hlen)
    refine ⟨s', (if_neg hne).trans ?_, hJ'⟩
    rw [forEachElement_eq, hrun]
    rfl

/-- **Invariant rule for the loop over an object.** -/
theorem forEachObjectField_members {visit : σ → Bytes → ValueView → Parsed σ}
    {J : List (Bytes × Bytes) → σ → Prop}
    (hvisit : ∀ m members s view, J (m :: members) s → Shows isFloat m.2 view →
      ∃ s', visit s m.1 view = .ok s' ∧ J members s')
    {members : List (Bytes × Bytes)} (hcount : members.length ≤ maxJsonObjectFields)
    (hm : ∀ m ∈ members, ValidUtf8 m.1 ∧ JsonText maxJsonNestingDepth m.2) (base : Nat) {s : σ}
    (hJ : J members s) :
    ∃ s', forEachObjectField isFloat visit (jsonObject (memberTexts members)) base s = .ok s' ∧
      J [] s' := by
  have hreads : (fieldLoop isFloat).Reads (MemberText (JsonText maxJsonNestingDepth))
      (fun m f => f.1 = m.1 ∧ Shows isFloat m.2 f.2) := by
    rintro ⟨key, v⟩ m h
    refine ⟨h.startsValue, fun c c' hmove hnext => ?_⟩
    obtain ⟨s, c₁, c₂, hs, hkey, hcolon, hvalue, hv⟩ :=
      h.enter (fun v hv => (hv.accepted le_rfl).1) hmove
    obtain ⟨view, hview, hchild⟩ := hv.parseChildValue isFloat hvalue hnext
    refine ⟨(key, view), ⟨rfl, hview⟩, ?_⟩
    show parseMember isFloat c = _
    rw [parseMember, parseObjectKey, if_neg (not_not.mpr hkey.head?),
      scanString_eq_ok_iff.mpr ⟨⟨key, hs⟩, rfl, hkey⟩]
    simp only [ok_bind, hs.stringContent, expect_eq_ok_iff.mpr hcolon, hchild]
  have hws : skipWs ⟨jsonObject (memberTexts members), base⟩ =
    ⟨jsonObject (memberTexts members), base⟩ :=
    StartsValue.skipWs_self ⟨_, _, rfl, by decide, by decide⟩ base
  have hhead : ¬ (jsonObject (memberTexts members)).head? ≠ some (byte '\x7b') := not_not.mpr rfl
  rw [forEachObjectField, hws]
  dsimp only
  rw [if_neg hhead]
  have hvisit' : ∀ m members s (f : Bytes × ValueView), J (m :: members) s →
      (f.1 = m.1 ∧ Shows isFloat m.2 f.2) → ∃ s', visit s f.1 f.2 = .ok s' ∧ J members s' := by
    rintro m members s f hJ ⟨hkey, hview⟩
    rw [hkey]
    exact hvisit m members s f.2 hJ hview
  rcases ItemLoop.visit_text rfl hreads hvisit' (objectText_jsonObject hm) hJ base rfl with
    ⟨hlast, hJ'⟩ | ⟨hne, -, hrun⟩
  · exact ⟨s, if_pos hlast, hJ'⟩
  · obtain ⟨s', c', hrun, hJ'⟩ := hrun maxJsonObjectFields hcount
    refine ⟨s', (if_neg hne).trans ?_, hJ'⟩
    rw [forEachMember_eq, hrun]
    rfl

/-! ### Members by name -/

/-- The value of the last member of a name. -/
def lastMember (name : Bytes) (members : List (Bytes × Bytes)) : Option Bytes :=
  members.foldl (fun out m => if m.1 = name then some m.2 else out) none

/-- **`object_member` finds the last member of a name.** -/
theorem objectMember_last {members : List (Bytes × Bytes)}
    (hcount : members.length ≤ maxJsonObjectFields)
    (hm : ∀ m ∈ members, ValidUtf8 m.1 ∧ JsonText maxJsonNestingDepth m.2) (base : Nat)
    (name : Bytes) :
    ∃ out, objectMember isFloat (.object (jsonObject (memberTexts members)) base) name = .ok out ∧
      Option.Rel (Shows isFloat) (lastMember name members) out := by
  -- what is known of the members so far is what the fold over their texts has found
  let I : List (Bytes × Bytes) → Option ValueView → Prop := fun rest out =>
    ∃ found, rest.foldl (fun out m => if m.1 = name then some m.2 else out) found
      = lastMember name members ∧ Option.Rel (Shows isFloat) found out
  let visit : Option ValueView → Bytes → ValueView → Parsed (Option ValueView) :=
    fun out key value => .ok (if key = name then some value else out)
  have hvisit : ∀ m rest out view, I (m :: rest) out → Shows isFloat m.2 view →
      ∃ out', visit out m.1 view = .ok out' ∧ I rest out' := by
    rintro m rest out view ⟨found, hfold, hrel⟩ hview
    refine ⟨_, rfl, if m.1 = name then some m.2 else found, hfold, ?_⟩
    split
    · exact .some hview
    · exact hrel
  have hstart : I members none := ⟨none, rfl, .none⟩
  obtain ⟨out, hout, found, hfold, hrel⟩ :=
    forEachObjectField_members isFloat hvisit hcount hm base hstart
  exact ⟨out, hout, hfold ▸ hrel⟩

end Parsing

end SchemaSanitizer
