/-
SchemaSanitizer/Generation.lean

The generation counter over a merge.

`parse_schema_generation` does not parse the document: it looks for the first place where the
quoted key `"schema_generation"` stands and reads the number after the next colon.  A
`CounterDocument` is a JSON object with the counter among its members, up to the digits of the
counter.  The counter is carried on by every merge, whatever its value, if and only if the colon
that the search comes to is that of the counter (`CounterDocument.Found`).  That is so in the
documents that the engine writes (`found_nativeDocument`), and it is not so with sorted keys if a
field has the name of the counter (`merge_loses_generation`).
-/
import SchemaSanitizer.Drift
import SchemaSanitizer.RegistryRoundTrip

namespace SchemaSanitizer

open Lib List

/-! ### The search -/

section Search

variable {pat s y before rest : Bytes} {c : UInt8}

/-- The rest after the first occurrence is the longest one. -/
theorem afterFirst_spec : ∀ {s : Bytes}, afterFirst pat s = some y →
    (∃ x, s = x ++ (pat ++ y)) ∧ ∀ x' y', s = x' ++ (pat ++ y') → y' <:+ y
  | [], h => by
    rw [afterFirst, Option.ite_none_right_eq_some] at h
    obtain ⟨rfl, ⟨⟩⟩ := h
    exact ⟨⟨[], rfl⟩, fun x' y' hs => by simp_all⟩
  | c :: s, h => by
    rw [afterFirst] at h
    split at h
    · rename_i hprefix
      cases h
      obtain ⟨more, hmore⟩ := isPrefixOf_iff_prefix.mp hprefix
      have hrest : (c :: s).drop pat.length = more := by rw [← hmore, drop_left]
      rw [hrest, ← hmore]
      refine ⟨⟨[], rfl⟩, fun x' y' hs => ?_⟩
      have hlen := congrArg length hs
      simp only [length_append] at hlen
      have hsuffix : y' <:+ pat ++ more := ⟨x' ++ pat, by rw [hs, append_assoc]⟩
      exact suffix_of_suffix_length_le hsuffix (suffix_append pat more) (by omega)
    · rename_i hprefix
      obtain ⟨⟨x, rfl⟩, hfirst⟩ := afterFirst_spec h
      refine ⟨⟨c :: x, rfl⟩, fun x' y' hs => ?_⟩
      cases x' with
      | nil =>
        refine absurd ?_ hprefix
        exact isPrefixOf_iff_prefix.mpr ⟨y', hs.symm⟩
      | cons d x' => exact hfirst x' y' (cons.inj hs).2

theorem afterFirst_eq_none : ∀ {s : Bytes}, afterFirst pat s = none → ¬ pat <:+: s
  | [], h, hfound => by
    rw [infix_nil] at hfound
    subst hfound
    cases h
  | c :: s, h, hfound => by
    rw [afterFirst] at h
    split at h
    · cases h
    · rename_i hnone
      rcases infix_cons_iff.mp hfound with hstart | hfound
      · apply hnone
        exact isPrefixOf_iff_prefix.mpr hstart
      · exact afterFirst_eq_none h hfound

theorem isPrefixOf_append (hc : c ∉ pat) :
    pat.isPrefixOf (before ++ c :: rest) = pat.isPrefixOf before := by
  rw [Bool.eq_iff_iff, isPrefixOf_iff_prefix, isPrefixOf_iff_prefix]
  refine ⟨fun h => ?_, fun h => h.trans (prefix_append _ _)⟩
  rcases prefix_or_prefix_of_prefix h (prefix_append before (c :: rest)) with h' | ⟨more, rfl⟩
  · exact h'
  · rw [prefix_append_right_inj] at h
    cases more with
    | nil => simp
    | cons d more =>
      obtain ⟨_, heq⟩ := h
      cases heq
      exact absurd (mem_append_right before mem_cons_self) hc

/-- What stands before a byte that the pattern does not have is searched for itself. -/
theorem afterFirst_append (hpat : pat ≠ []) (hc : c ∉ pat) : ∀ before : Bytes,
    afterFirst pat (before ++ c :: rest)
      = ((afterFirst pat before).map (· ++ c :: rest)).or (afterFirst pat rest)
  | [] => by
    have hne : pat.isPrefixOf (c :: rest) = false := by
      cases pat with
      | nil => exact absurd rfl hpat
      | cons d pat =>
        have hd : d ≠ c := fun h => hc (h ▸ mem_cons_self)
        simp [isPrefixOf, hd]
    rw [nil_append, show afterFirst pat [] = none from if_neg hpat, afterFirst, hne]
    rfl
  | b :: before => by
    have hsame : pat.isPrefixOf (b :: before ++ c :: rest) = pat.isPrefixOf (b :: before) :=
      isPrefixOf_append hc
    rw [cons_append] at hsame ⊢
    rw [afterFirst, hsame, afterFirst]
    split
    · rename_i hprefix
      obtain ⟨more, hmore⟩ := isPrefixOf_iff_prefix.mp hprefix
      rw [← cons_append, ← hmore, append_assoc, drop_left, drop_left]
      rfl
    · exact afterFirst_append hpat hc before

theorem afterFirst_skip {d : UInt8} : ∀ {before : Bytes}, (∀ b ∈ before, b ≠ d) →
    afterFirst (d :: pat) (before ++ rest) = afterFirst (d :: pat) rest
  | [], _ => rfl
  | b :: before, h => by
    rw [forall_mem_cons] at h
    rw [cons_append, afterFirst, if_neg (by simp [isPrefixOf, Ne.symm h.1])]
    exact afterFirst_skip h.2

theorem afterFirst_byte (h : c ∉ before) : afterFirst [c] (before ++ c :: rest) = some rest := by
  rw [afterFirst_skip fun b hb => ne_of_mem_of_not_mem hb h, afterFirst, if_pos (by simp)]
  rfl

theorem takeWhile_digits_append (hdigit : isDigit c = false) (before : Bytes) :
    (before ++ c :: rest).takeWhile isDigit = before.takeWhile isDigit := by
  rw [takeWhile_append]
  split
  · rename_i hall
    rw [takeWhile_cons_of_neg (by simp [hdigit]), append_nil]
    exact ((takeWhile_sublist _).eq_of_length hall).symm
  · rfl

/-- A number ends before a byte that cannot belong to it. -/
theorem fromChars_append {lo hi : Int} (hdigit : isDigit c = false) (hminus : c ≠ byte '-')
    (before : Bytes) : (fromChars lo hi (before ++ c :: rest)).map Prod.fst
      = (fromChars lo hi before).map Prod.fst := by
  cases before with
  | nil => simp [fromChars, hdigit, hminus]
  | cons b before =>
    have hdigits : (before ++ c :: rest).takeWhile isDigit = before.takeWhile isDigit :=
      takeWhile_digits_append hdigit before
    have hdigits' : (b :: (before ++ c :: rest)).takeWhile isDigit
        = (b :: before).takeWhile isDigit := takeWhile_digits_append hdigit (b :: before)
    cases hb : b == byte '-' with
    | true =>
      simp only [fromChars, cons_append, head?_cons, tail_cons, Option.some_beq_some, hb, hdigits,
        if_true]
      split_ifs <;> rfl
    | false =>
      simp only [fromChars, cons_append, head?_cons, tail_cons, Option.some_beq_some, hb, hdigits',
        Bool.false_eq_true, if_false]
      split_ifs <;> rfl

theorem readGeneration_eq (rest : Bytes) : readGeneration rest
    = max 1 (((afterFirst [byte ':'] rest).bind fun value =>
      (fromChars int64Min int64Max (value.dropWhile isSpace)).map Prod.fst).getD 1) := by
  rw [readGeneration]
  cases afterFirst [byte ':'] rest with
  | none => rfl
  | some value =>
    dsimp only [Option.bind_some]
    cases fromChars int64Min int64Max (value.dropWhile isSpace) with
    | none => rfl
    | some p =>
      show (if p.1 < 1 then 1 else p.1) = max 1 p.1
      split <;> omega

/-- The number after a colon does not depend on what follows the next colon. -/
theorem readGeneration_append (h : byte ':' ∈ y) (rest rest' : Bytes) :
    readGeneration (y ++ byte ':' :: rest) = readGeneration (y ++ byte ':' :: rest') := by
  obtain ⟨before, after, rfl, hbefore⟩ := eq_append_cons_of_mem h
  have hread : ∀ rest, readGeneration (before ++ byte ':' :: after ++ byte ':' :: rest)
      = max 1 (((fromChars int64Min int64Max (after.dropWhile isSpace)).map Prod.fst).getD 1) := by
    intro rest
    have hdrop : (after ++ byte ':' :: rest).dropWhile isSpace
        = after.dropWhile isSpace ++ byte ':' :: rest := by
      rw [dropWhile_append]
      split
      · rename_i hempty
        rw [isEmpty_iff.mp hempty]
        rfl
      · rfl
    rw [append_assoc, cons_append, readGeneration_eq, afterFirst_byte hbefore, Option.bind_some,
      hdrop, fromChars_append (by decide) (by decide)]
  rw [hread, hread]

end Search

/-! ### Documents -/

/-- The key of the counter. -/
def counterKey : Bytes := bytes "schema_generation"

/-- **A registry document up to its counter**: a JSON object of any members in any order, with
one of that key.  The digits of the counter stand between `head`, a colon and white space on the
one side and `tail` on the other. -/
structure CounterDocument (room : Nat) where
  head : Bytes
  space : Bytes
  tail : Bytes
  before : List (Bytes × Bytes)
  after : List (Bytes × Bytes)
  blank : Blank space
  ends : ∀ c, tail.head? = some c → isDigit c = false
  object : ∀ g, ObjectText (ValueText room) (before ++ (counterKey, decimal g) :: after)
    (head ++ byte ':' :: (space ++ (decimal g ++ tail)))
  only : ∀ m ∈ before ++ after, m.1 ≠ counterKey

namespace CounterDocument

variable {room : Nat} (d : CounterDocument room)

/-- The document with a counter. -/
def text (g : Nat) : Bytes := d.head ++ byte ':' :: (d.space ++ (decimal g ++ d.tail))

/-- **The counter is found**: its quoted key stands before its colon, and no other colon comes
between, wherever else in that part the quoted key may stand. -/
def Found : Prop :=
  generationKey <:+: d.head ∧ ∀ x y, d.head = x ++ (generationKey ++ y) → byte ':' ∉ y

theorem found_iff : d.Found ↔ ∃ y, afterFirst generationKey d.head = some y ∧ byte ':' ∉ y := by
  constructor
  · rintro ⟨hfound, hall⟩
    cases hfirst : afterFirst generationKey d.head with
    | none => exact absurd hfound (afterFirst_eq_none hfirst)
    | some y =>
      obtain ⟨⟨x, hx⟩, -⟩ := afterFirst_spec hfirst
      exact ⟨y, rfl, hall x y hx⟩
  · rintro ⟨y, hfirst, hy⟩
    obtain ⟨⟨x, hx⟩, hsuffix⟩ := afterFirst_spec hfirst
    exact ⟨⟨x, y, by rw [hx, append_assoc]⟩,
      fun x' y' hx' hmem => hy ((hsuffix x' y' hx').subset hmem)⟩

theorem afterFirst_text (g : Nat) : afterFirst generationKey (d.text g)
    = ((afterFirst generationKey d.head).map
        (· ++ byte ':' :: (d.space ++ (decimal g ++ d.tail)))).or
      (afterFirst generationKey d.tail) := by
  have hskip : ∀ c ∈ d.space ++ decimal g, c ≠ byte '"' := by
    rintro c hc rfl
    rcases mem_append.mp hc with hc | hc
    · exact absurd (d.blank _ hc) (by decide)
    · exact absurd (decimal_isDigit hc) (by decide)
  rw [text, afterFirst_append (by decide) (by decide), ← append_assoc d.space]
  congr 1
  exact afterFirst_skip hskip

/-- The counter that is found is read. -/
theorem Found.parse (h : d.Found) {g : Nat} (hpos : 1 ≤ g) (hmax : (g : Int) ≤ int64Max) :
    parseSchemaGeneration (d.text g) = g := by
  obtain ⟨y, hfirst, hy⟩ := d.found_iff.mp h
  have hspace : ∀ c ∈ d.space, isSpace c = true := by
    intro c hc
    have hws : isWs c = true → isSpace c = true := forall_byte (by decide +kernel) c
    exact hws (d.blank c hc)
  have hskip : (d.space ++ (decimal g ++ d.tail)).dropWhile isSpace = decimal g ++ d.tail := by
    obtain ⟨b, bs, hb⟩ := exists_cons_of_ne_nil (decimal_ne_nil g)
    have hdigit : isDigit b = true := decimal_isDigit (n := g) (by simp [hb])
    have hnone : isSpace b = false := by grind [isDigit, isSpace]
    rw [dropWhile_append_of_pos hspace, hb, cons_append, dropWhile_cons_of_neg (by simp [hnone])]
  rw [parseSchemaGeneration, afterFirst_text, hfirst, Option.map_some, Option.some_or]
  dsimp only
  rw [readGeneration_eq, afterFirst_byte hy, Option.bind_some, hskip,
    fromChars_decimal int64Max g (by decide) d.ends, if_pos hmax]
  show max 1 (g : Int) = g
  omega

/-- If the counter is not found, what is read does not depend on it. -/
theorem parse_of_not_found (h : ¬ d.Found) (g g' : Nat) :
    parseSchemaGeneration (d.text g) = parseSchemaGeneration (d.text g') := by
  rw [parseSchemaGeneration, parseSchemaGeneration, afterFirst_text, afterFirst_text]
  cases hfirst : afterFirst generationKey d.head with
  | none => rfl
  | some y =>
    have hy : byte ':' ∈ y := by
      by_contra hy
      exact h (d.found_iff.mpr ⟨y, hfirst, hy⟩)
    exact readGeneration_append hy _ _

end CounterDocument

/-- The digits of one member among the items of an object can be replaced. -/
theorem itemsText_counter {room : Nat} {last : UInt8} {g : Nat} {after : List (Bytes × Bytes)}
    (hlast : isClosing last = true) : ∀ {before : List (Bytes × Bytes)} {t : Bytes},
      ItemsText (MemberText (ValueText room)) last (before ++ (counterKey, decimal g) :: after) t →
      ∃ head space tail, t = head ++ byte ':' :: (space ++ (decimal g ++ tail)) ∧ Blank space ∧
        (∀ c, tail.head? = some c → isDigit c = false) ∧
        ∀ g', ItemsText (MemberText (ValueText room)) last
          (before ++ (counterKey, decimal g') :: after)
          (head ++ byte ':' :: (space ++ (decimal g' ++ tail)))
  | [], t, h => by
    have hnumber : ∀ g', ValueText room (decimal g') := by
      intro g'
      have hint : jsonInt (g' : Int) = decimal g' := if_neg (by omega)
      exact .scalar (.number (hint ▸ numberText_jsonInt g'))
    have hends : ∀ {w : Bytes} {c : UInt8} {rest : Bytes}, Blank w → isDigit c = false →
        ∀ b, (w ++ c :: rest).head? = some b → isDigit b = false := by
      intro w c rest hw hc b hb
      cases w with
      | nil =>
        cases hb
        exact hc
      | cons b' w =>
        cases hb
        have hws : isWs b = true → isDigit b = false := forall_byte (by decide +kernel) b
        exact hws (hw b mem_cons_self)
    cases h with
    | @last _ t w hx hw =>
      obtain @⟨s, _, _, w₁, w₂, hs, hw₁, hw₂, -⟩ := hx
      have hdigit : isDigit last = false := by
        revert hlast
        exact forall_byte (by decide +kernel) last
      refine ⟨quoted s ++ w₁, w₂, w ++ [last], by simp, hw₂, hends hw hdigit, fun g' => ?_⟩
      have hitem : ItemsText (MemberText (ValueText room)) last [(counterKey, decimal g')] _ :=
        .last (.mk hs hw₁ hw₂ (hnumber g')) hw
      simpa using hitem
    | @more _ t w w' u _ hx hw hw' hxs =>
      obtain @⟨s, _, _, w₁, w₂, hs, hw₁, hw₂, -⟩ := hx
      refine ⟨quoted s ++ w₁, w₂, w ++ byte ',' :: (w' ++ u), by simp, hw₂, hends hw (by decide),
        fun g' => ?_⟩
      have hitem := ItemsText.more (MemberText.mk hs hw₁ hw₂ (hnumber g')) hw hw' hxs
      simpa using hitem
  | m :: before, t, h => by
    rw [cons_append] at h
    generalize hms : before ++ (counterKey, decimal g) :: after = ms at h
    cases h with
    | last => simp at hms
    | @more _ t w w' u _ hx hw hw' hxs =>
      subst hms
      obtain ⟨head, space, tail, rfl, hspace, hends, hall⟩ := itemsText_counter hlast hxs
      refine ⟨t ++ (w ++ byte ',' :: (w' ++ head)), space, tail, by simp, hspace, hends,
        fun g' => ?_⟩
      have hitem := ItemsText.more hx hw hw' (hall g')
      simpa using hitem

/-- **Every registry document with one counter is a `CounterDocument`.** -/
theorem exists_counterDocument {room : Nat} {before after : List (Bytes × Bytes)} {g : Nat}
    {t : Bytes} (h : ObjectText (ValueText room) (before ++ (counterKey, decimal g) :: after) t)
    (honly : ∀ m ∈ before ++ after, m.1 ≠ counterKey) :
    ∃ d : CounterDocument room, d.before = before ∧ d.after = after ∧ d.text g = t := by
  generalize hms : before ++ (counterKey, decimal g) :: after = ms at h
  cases h with
  | empty => simp at hms
  | @items w t _ hw hxs =>
    subst hms
    obtain ⟨head, space, tail, rfl, hspace, hends, hall⟩ := itemsText_counter (by decide) hxs
    let d : CounterDocument room := {
      head := byte '\x7b' :: (w ++ head), space, tail, before, after, blank := hspace, ends := hends
      object := fun g' => by
        have hobject : ObjectText (ValueText room) _ _ := .items hw (hall g')
        simpa using hobject
      only := honly }
    exact ⟨d, rfl, rfl, by simp [d, CounterDocument.text]⟩

/-! ### The counter over a merge -/

/-- A merge of one integer field against a document. -/
def documentInput (name : String) (registryJson : Bytes) : SchemaRegistryMergeInput :=
  { sampleInput .alphabetically [sampleField name (.scalar .int64)] with registryJson }

/-- Every merge against the document carries the counter on: by one if there was a drift. -/
def CounterDocument.Carried {room : Nat} (d : CounterDocument room) : Prop :=
  ∀ clock input previous result (g : Nat), 1 ≤ g → (g : Int) < int64Max →
    input.registryJson = d.text g →
    mergeSchemaRegistryWithPrevious clock input previous = .ok result →
    result.registryJson = registryDocument result.schema input.fieldNamePolicy
      (g + if result.drifts = [] then 0 else 1)

theorem CounterDocument.Found.carried {room : Nat} {d : CounterDocument room} (h : d.Found) :
    d.Carried := by
  intro clock input previous result g hpos hmax hdocument hok
  have hread := h.parse d hpos (show (g : Int) ≤ int64Max by omega)
  rw [(merge_ok hok).2.2.2, registryJson, hdocument, hread]
  have hlow : int64Min ≤ 0 := by decide
  cases result.drifts with
  | nil => rw [int64Add_of_le (by simp; omega) (by simp; omega)]; rfl
  | cons e es => rw [int64Add_of_le (by simp; omega) (by simp; omega)]; rfl

/-- A counter that every merge carries on is found. -/
theorem CounterDocument.found_of_carried {room : Nat} {d : CounterDocument room}
    (h : d.Carried) : d.Found := by
  by_contra hfound
  -- a merge that adds its only field, against two generations of the document
  have hmerge : ∀ g, ∃ result, mergeSchemaRegistryWithPrevious (.ok [])
      (documentInput "a" (d.text g)) none = .ok result ∧ result.drifts ≠ [] ∧
      result.schema = ⟨[sampleField "a" (.scalar .int64)]⟩ := fun g => ⟨_, rfl, nofun, rfl⟩
  have hwritten : ∀ g : Nat, 1 ≤ g → (g : Int) < int64Max →
      registryDocument ⟨[sampleField "a" (.scalar .int64)]⟩ (bytes "lower_snake")
          (int64Add (parseSchemaGeneration (d.text g)) 1)
        = registryDocument ⟨[sampleField "a" (.scalar .int64)]⟩ (bytes "lower_snake") (g + 1) := by
    intro g hpos hmax
    obtain ⟨result, hok, hdrifts, hschema⟩ := hmerge g
    have hcarried := h _ _ _ _ g hpos hmax rfl hok
    rw [if_neg hdrifts, (merge_ok hok).2.2.2, registryJson, hschema] at hcarried
    obtain ⟨e, es, hes⟩ := exists_cons_of_ne_nil hdrifts
    rw [hes] at hcarried
    exact hcarried
  have htwo := (hwritten 1 (by decide) (by decide)).symm.trans
    ((congrArg (fun n => registryDocument _ _ (int64Add n 1))
      (d.parse_of_not_found hfound 1 2)).trans (hwritten 2 (by decide) (by decide)))
  exact absurd htwo (by decide +kernel)

/-- **The generation is carried on by every merge exactly if the counter is found.** -/
theorem merge_generation_iff {room : Nat} (d : CounterDocument room) : d.Carried ↔ d.Found :=
  ⟨CounterDocument.found_of_carried, CounterDocument.Found.carried⟩

/-! ### The documents of the engine -/

/-- The names that the option `field_name_policy` accepts. -/
def policyTexts : List Bytes := [bytes "lower_alpha", bytes "lower_snake", bytes "preserve"]

/-- The document of the engine before its counter. -/
def nativeHead (policy : Bytes) : Bytes :=
  byte '\x7b' :: (jsonMember (bytes "field_name_policy") (jsonString policy) ++ byte ',' ::
    (jsonMember (bytes "registry_version") (jsonInt 1) ++ byte ',' :: generationKey))

/-- The document of the engine after its counter. -/
def nativeTail (schema : LogicalSchema) : Bytes :=
  byte ',' :: (jsonMember (bytes "canonical_schema") (canonicalSchemaJson schema) ++ byte ',' ::
    (jsonMember (bytes "variants")
      (registryVariantsJson (collectRegistryVariants schema.fields [])) ++ [byte '\x7d']))

/-- The members of the document of the engine, the counter apart. -/
def nativeBefore (policy : Bytes) : List (Bytes × Bytes) :=
  [(bytes "field_name_policy", jsonString policy), (bytes "registry_version", jsonInt 1)]

@[inherit_doc nativeBefore]
def nativeAfter (schema : LogicalSchema) : List (Bytes × Bytes) :=
  [(bytes "canonical_schema", canonicalSchemaJson schema),
    (bytes "variants", registryVariantsJson (collectRegistryVariants schema.fields []))]

theorem registryDocument_split (schema : LogicalSchema) (policy : Bytes) (g : Nat) :
    registryDocument schema policy g
      = nativeHead policy ++ byte ':' :: ([] ++ (decimal g ++ nativeTail schema)) := by
  have hint : jsonInt (g : Int) = decimal g := if_neg (by omega)
  simp [registryDocument, jsonObject, jsonSequence, intercalate, intersperse,
    nativeHead, nativeTail,
    hint, jsonMember, generationKey, bytes]

theorem objectText_native {schema : LogicalSchema} (h : schema.Fits) {policy : Bytes}
    (hpolicy : ValidUtf8 policy) (g : Nat) : ObjectText (ValueText (maxJsonNestingDepth - 1))
      (nativeBefore policy ++ (counterKey, decimal g) :: nativeAfter schema)
      (registryDocument schema policy g) := by
  have hint : jsonInt (g : Int) = decimal g := if_neg (by omega)
  have hschema := jsonText_canonicalSchema h.toStorable
  have hvariants := jsonText_variants h.variants h.paths
  have hdepth := h.depth
  have htext : registryDocument schema policy g = jsonObject (memberTexts
      (nativeBefore policy ++ (counterKey, decimal g) :: nativeAfter schema)) := by
    rw [← hint]
    rfl
  rw [htext]
  refine objectText_jsonObject ?_
  simp only [nativeBefore, nativeAfter, forall_mem_append, forall_mem_cons, not_mem_nil,
    IsEmpty.forall_iff, implies_true, and_true]
  exact ⟨⟨⟨validUtf8_bytes rfl, .scalar (.string (jsonCharacters_escaped hpolicy))⟩,
      validUtf8_bytes rfl, .scalar (.number (numberText_jsonInt 1))⟩,
    ⟨validUtf8_bytes rfl, .scalar (.number (hint ▸ numberText_jsonInt g))⟩,
    ⟨validUtf8_bytes rfl, hschema.valueText (by omega)⟩,
    validUtf8_bytes rfl, hvariants.valueText (by decide)⟩

/-- The document that the engine publishes, up to its counter. -/
def nativeDocument {schema : LogicalSchema} (h : schema.Fits) {policy : Bytes}
    (hpolicy : ValidUtf8 policy) : CounterDocument (maxJsonNestingDepth - 1) where
  head := nativeHead policy
  space := []
  tail := nativeTail schema
  before := nativeBefore policy
  after := nativeAfter schema
  blank := blank_nil
  ends := by
    rintro c ⟨⟩
    rfl
  object := fun g => by
    rw [← registryDocument_split]
    exact objectText_native h hpolicy g
  only := by
    simp only [nativeBefore, nativeAfter, forall_mem_append, forall_mem_cons, not_mem_nil,
      IsEmpty.forall_iff, implies_true, and_true]
    exact ⟨⟨by decide, by decide⟩, by decide, by decide⟩

theorem nativeDocument_text {schema : LogicalSchema} (h : schema.Fits) {policy : Bytes}
    (hpolicy : ValidUtf8 policy) (g : Nat) :
    (nativeDocument h hpolicy).text g = registryDocument schema policy g :=
  (registryDocument_split schema policy g).symm

/-- **The counter of a published document is found**, whatever the names of its fields. -/
theorem found_nativeDocument {schema : LogicalSchema} (h : schema.Fits) {policy : Bytes}
    (hpolicy : ValidUtf8 policy) (hmem : policy ∈ policyTexts) :
    (nativeDocument h hpolicy).Found := by
  have hfirst : ∀ p ∈ policyTexts, afterFirst generationKey (nativeHead p) = some [] := by
    decide +kernel
  exact (CounterDocument.found_iff _).mpr ⟨[], hfirst policy hmem, not_mem_nil⟩

/-- One field, which has the name of the counter. -/
def counterSchema : LogicalSchema := ⟨[sampleField "schema_generation" (.scalar .int64)]⟩

theorem counterSchema_fits : counterSchema.Fits where
  fields :=
    { count := by decide
      named := by
        rintro f (_ | ⟨_, ⟨⟩⟩)
        exact ⟨by decide, validUtf8_bytes (by decide)⟩
      typed := by
        rintro f (_ | ⟨_, ⟨⟩⟩)
        exact Option.some_ne_none _ }
  types := by
    rintro f (_ | ⟨_, ⟨⟩⟩) t ⟨rfl⟩
    exact forall_scalar.mpr trivial
  nodes := by decide
  depth := by decide
  paths := by decide

/-- A published document of generation 7 with such a field becomes one of generation 8 when a
field is added. -/
theorem merge_generation_iff_native : ∃ result, mergeSchemaRegistryWithPrevious (.ok [])
      (documentInput "a" (registryDocument counterSchema (bytes "lower_snake") (7 : Nat)))
      (some counterSchema) = .ok result ∧ result.drifts ≠ [] ∧
    result.registryJson = registryDocument result.schema (bytes "lower_snake") 8 := by
  have hpolicy : ValidUtf8 (bytes "lower_snake") := validUtf8_bytes (by decide)
  have hcarried := (merge_generation_iff (nativeDocument counterSchema_fits hpolicy)).mpr
    (found_nativeDocument counterSchema_fits hpolicy (by decide))
  refine Exists.imp (p := fun result => _ = _ ∧ result.drifts ≠ [])
    (fun result ⟨hok, hdrifts⟩ => ⟨hok, hdrifts, ?_⟩) ⟨_, rfl, nofun⟩
  have hread := hcarried _ _ _ _ 7 (by decide) (by decide)
    (nativeDocument_text counterSchema_fits hpolicy 7).symm hok
  rwa [if_neg hdrifts] at hread

/-- The document of a generation with its keys sorted, as `_normalize_registry_json` writes a
mapping. -/
def sortedRegistryDocument (schema : LogicalSchema) (fieldNamePolicy : Bytes) (generation : Int) :
    Bytes :=
  jsonObject [jsonMember (bytes "canonical_schema") (canonicalSchemaJson schema),
    jsonMember (bytes "field_name_policy") (jsonString fieldNamePolicy),
    jsonMember (bytes "registry_version") (jsonInt 1),
    jsonMember (bytes "schema_generation") (jsonInt generation),
    jsonMember (bytes "variants")
      (registryVariantsJson (collectRegistryVariants schema.fields []))]

/-- The counter of such a document is lost if a field has the name of the counter: the schema
is the same, and the generation falls from 7 to 1. -/
theorem merge_loses_generation :
    ∃ result, mergeSchemaRegistryWithPrevious (.ok []) (documentInput "schema_generation"
        (sortedRegistryDocument counterSchema (bytes "lower_snake") 7)) (some counterSchema)
          = .ok result ∧
      result.drifts = [] ∧
      result.registryJson = registryDocument result.schema (bytes "lower_snake") 1 := by
  have hread : parseSchemaGeneration
      (sortedRegistryDocument counterSchema (bytes "lower_snake") 7) = 1 := by decide +kernel
  refine Exists.imp (p := fun result => _ = _ ∧ result.drifts = [])
    (fun result ⟨hok, hdrifts⟩ => ⟨hok, hdrifts, ?_⟩) ⟨_, rfl, rfl⟩
  rw [(merge_ok hok).2.2.2, registryJson, hdrifts]
  simp only [documentInput, hread]
  rfl

end SchemaSanitizer
