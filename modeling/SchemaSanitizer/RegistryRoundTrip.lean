/-
SchemaSanitizer/RegistryRoundTrip.lean

A stored schema is read back.

The writer nests three containers for every struct (the type, its array of fields
and the field) and one for every list; `jsonDepth` counts them.  A document within
the limits of the decoder is compact JSON, so the scanner accepts it, and decoding
follows the recursion of the writer: every type is found in the member that holds
it, and the budget of nodes goes down by the nodes of the type
(`decodes_logicalTypeFromRegistryNode`).
-/
import SchemaSanitizer.JsonView
import SchemaSanitizer.Lib.SortedRuns

namespace SchemaSanitizer

open Lib List

/-! ### Sizes -/

mutual

/-- How deep the containers of a written type are nested. -/
def jsonDepth : LogicalType → Nat
  | .scalar _ => 1
  | .struct fs => 2 + jsonDepthFields fs
  | .list v => 1 + jsonDepthValue v

/-- The nesting of an optional type. -/
def jsonDepthValue : Option LogicalType → Nat
  | none => 1
  | some t => jsonDepth t

/-- The nesting of a written field. -/
def jsonDepthField : LogicalField → Nat
  | ⟨_, v, _⟩ => 1 + jsonDepthValue v

/-- The nesting of the entries of an array of fields. -/
def jsonDepthFields : List LogicalField → Nat
  | [] => 0
  | f :: fs => max (jsonDepthField f) (jsonDepthFields fs)

end

mutual

/-- The nodes of a type, as the decoder counts them: types and fields. -/
def typeNodes : LogicalType → Nat
  | .scalar _ => 1
  | .struct fs => 1 + fieldsNodes fs
  | .list v => 1 + valueNodes v

/-- The nodes of an optional type. -/
def valueNodes : Option LogicalType → Nat
  | none => 0
  | some t => typeNodes t

/-- The nodes of a field. -/
def fieldNodes : LogicalField → Nat
  | ⟨_, v, _⟩ => 1 + valueNodes v

/-- The nodes of a field vector. -/
def fieldsNodes : List LogicalField → Nat
  | [] => 0
  | f :: fs => fieldNodes f + fieldsNodes fs

end

variable {f : LogicalField} {t : LogicalType}

theorem jsonDepthField_le : ∀ {fs : List LogicalField}, f ∈ fs →
    jsonDepthField f ≤ jsonDepthFields fs
  | g :: fs, hf => by
    rw [jsonDepthFields]
    rcases mem_cons.mp hf with rfl | hf
    · exact le_max_left _ _
    · exact le_max_of_le_right (jsonDepthField_le hf)

theorem jsonDepthField_of_type (htype : f.type = some t) : jsonDepthField f = jsonDepth t + 1 := by
  obtain ⟨n, v, b⟩ := f
  cases htype
  rw [jsonDepthField, jsonDepthValue, Nat.add_comm]

theorem logicalFieldJsons_eq (fs : List LogicalField) :
    logicalFieldJsons fs = fs.map logicalFieldJson := by
  induction fs with
  | nil => rfl
  | cons f fs ih => rw [logicalFieldJsons, ih, map_cons]

/-! ### Storable schemas -/

/-- Fields that the decoder accepts back: named in valid UTF-8, typed, and not too
many. -/
structure StorableFields (fs : List LogicalField) : Prop where
  count : fs.length ≤ maxLogicalSchemaFieldsPerStruct
  named : ∀ f ∈ fs, f.name ≠ [] ∧ ValidUtf8 f.name
  typed : ∀ f ∈ fs, f.type ≠ none

/-- The condition on one node of a type. -/
def StorableNode : LogicalType → Prop
  | .scalar _ => True
  | .struct fs => StorableFields fs
  | .list v => v ≠ none

/-- A schema that the decoder accepts back, limits on the whole document apart. -/
structure LogicalSchema.Storable (schema : LogicalSchema) : Prop where
  fields : StorableFields schema.fields
  types : ∀ f ∈ schema.fields, ∀ t, f.type = some t → t.Forall StorableNode

/-! ### The written schema is compact JSON -/

variable {d : Nat}

theorem JsonText.objectOf {members : List (Bytes × Bytes)}
    (hcount : members.length ≤ maxJsonObjectFields)
    (hm : ∀ m ∈ members, m.1.all (· < 0x80) = true ∧ JsonText d m.2) :
    JsonText (d + 1) (jsonObject (memberTexts members)) :=
  .object hcount (fun m h => validUtf8_bytes (hm m h).1) fun m h => (hm m h).2

/-- The members of a written field. -/
def fieldMembers (f : LogicalField) : List (Bytes × Bytes) :=
  [(bytes "name", jsonString f.name), (bytes "nullable", jsonBool f.nullable),
    (bytes "type", valueTypeJson f.type)]

theorem logicalFieldJson_eq (f : LogicalField) :
    logicalFieldJson f = jsonObject (memberTexts (fieldMembers f)) := by
  cases f
  rfl

theorem jsonText_field (hname : ValidUtf8 f.name) (htype : f.type = some t)
    (ht : JsonText (jsonDepth t) (logicalTypeJson t)) :
    JsonText (jsonDepthField f) (logicalFieldJson f) := by
  rw [jsonDepthField_of_type htype, logicalFieldJson_eq]
  refine JsonText.objectOf (Nat.le_of_ble_eq_true rfl) ?_
  rw [fieldMembers, forall_mem_cons, forall_mem_cons, forall_mem_singleton, htype]
  exact ⟨⟨rfl, .string _ hname⟩, ⟨rfl, .bool _ _⟩, ⟨rfl, ht⟩⟩

theorem logicalTypeJson_scalar (k : ScalarKind) : logicalTypeJson (.scalar k)
    = jsonObject (memberTexts [(bytes "kind", jsonString k.kindName)]) := rfl

theorem canonicalSchemaJson_eq (fs : List LogicalField) : canonicalSchemaJson ⟨fs⟩
    = jsonObject (memberTexts [(bytes "fields", jsonArray (logicalFieldJsons fs))]) := rfl

theorem jsonText_fields {fs : List LogicalField} (hfs : StorableFields fs)
    (ht : ∀ f ∈ fs, ∀ t, f.type = some t → JsonText (jsonDepth t) (logicalTypeJson t)) :
    ∀ i ∈ logicalFieldJsons fs, JsonText (jsonDepthFields fs) i := by
  intro i hi
  rw [logicalFieldJsons_eq, mem_map] at hi
  obtain ⟨f, hf, rfl⟩ := hi
  obtain ⟨t, htype⟩ := Option.ne_none_iff_exists'.mp (hfs.typed f hf)
  exact (jsonText_field (hfs.named f hf).2 htype (ht f hf t htype)).mono (jsonDepthField_le hf)

/-- The members of a written type with one part. -/
def partMembers (kind name part : Bytes) : List (Bytes × Bytes) :=
  [(bytes "kind", jsonString kind), (name, part)]

theorem jsonText_part (kind name : Bytes) {part : Bytes} (hkind : kind.all (· < 0x80) = true)
    (hname : name.all (· < 0x80) = true) (hpart : JsonText d part) :
    JsonText (d + 1) (jsonObject (memberTexts (partMembers kind name part))) := by
  refine JsonText.objectOf (Nat.le_of_ble_eq_true rfl) ?_
  rw [partMembers, forall_mem_cons, forall_mem_singleton]
  exact ⟨⟨rfl, .string _ (validUtf8_bytes hkind)⟩, hname, hpart⟩

theorem ScalarKind.kindName_ascii (k : ScalarKind) : k.kindName.all (· < 0x80) = true := by
  cases k <;> decide

/-- **A written type is compact JSON.** -/
theorem jsonText_type (h : t.Forall StorableNode) : JsonText (jsonDepth t) (logicalTypeJson t) := by
  induction t with
  | scalar k =>
    rw [logicalTypeJson_scalar]
    refine JsonText.objectOf (Nat.le_of_ble_eq_true rfl) ?_
    rw [forall_mem_singleton]
    exact ⟨rfl, .string _ (validUtf8_bytes k.kindName_ascii)⟩
  | struct fs ih =>
    rw [forall_struct] at h
    have hitems := jsonText_fields h.1 fun f hf t ht => ih f hf t ht (h.2 f hf t ht)
    have hpart := jsonText_part (bytes "struct") (bytes "fields") (by decide)
      (by decide) (JsonText.array hitems)
    rw [jsonDepth, Nat.add_comm 2]
    exact hpart
  | listNone => exact absurd rfl (forall_listNone.mp h)
  | listSome t ih =>
    rw [forall_listSome] at h
    have hpart := jsonText_part (bytes "list") (bytes "value") (by decide)
      (by decide) (ih h.2)
    rw [jsonDepth, jsonDepthValue, Nat.add_comm 1]
    exact hpart

/-! ### Decoding -/

variable {view : ValueView}

section Decoding

variable (isFloat : Bytes → Bool)

theorem shows_jsonString {s : Bytes} (hs : ValidUtf8 s)
    (h : Shows isFloat (jsonString s) view) : view = .string s := by
  obtain ⟨base, h⟩ := h
  rw [parseValue_jsonString isFloat hs] at h
  cases h
  rfl

theorem shows_jsonBool {b : Bool} (h : Shows isFloat (jsonBool b) view) : view = .bool b := by
  obtain ⟨base, h⟩ := h
  rw [parseValue_jsonBool] at h
  cases h
  rfl

theorem shows_jsonObject {members : List Bytes}
    (hm : JsonText maxJsonNestingDepth (jsonObject members))
    (h : Shows isFloat (jsonObject members) view) :
    ∃ base, view = .object (jsonObject members) base := by
  obtain ⟨base, h⟩ := h
  rw [parseValue_jsonObject isFloat hm le_rfl] at h
  cases h
  exact ⟨base, rfl⟩

theorem shows_jsonArray {items : List Bytes} (hi : JsonText maxJsonNestingDepth (jsonArray items))
    (h : Shows isFloat (jsonArray items) view) : ∃ base, view = .array (jsonArray items) base := by
  obtain ⟨base, h⟩ := h
  rw [parseValue_jsonArray isFloat hi le_rfl] at h
  cases h
  exact ⟨base, rfl⟩

theorem lastMember_singleton (name text : Bytes) : lastMember name [(name, text)] = some text :=
  if_pos rfl

theorem requiredObjectMember_some {members : List (Bytes × Bytes)} {name text : Bytes}
    (hcount : members.length ≤ maxJsonObjectFields)
    (hm : ∀ m ∈ members, ValidUtf8 m.1 ∧ JsonText maxJsonNestingDepth m.2)
    (hlast : lastMember name members = some text) (base : Nat) (context : String) :
    ∃ view, Shows isFloat text view ∧
      requiredObjectMember isFloat (.object (jsonObject (memberTexts members)) base) name context
        = .ok view := by
  obtain ⟨out, hout, hrel⟩ := objectMember_last isFloat hcount hm base name
  rw [hlast] at hrel
  cases hrel with
  | some hview =>
    refine ⟨_, hview, ?_⟩
    rw [requiredObjectMember, hout]
    rfl

/-- `decodeType` reads back a type from its text. -/
def Decodes (decodeType : ValueView → Nat → Parsed (LogicalType × Nat)) (t : LogicalType) : Prop :=
  ∀ view budget, Shows isFloat (logicalTypeJson t) view →
    decodeType view (typeNodes t + budget) = .ok (t, budget)

section Fields

variable {decodeType : ValueView → Nat → Parsed (LogicalType × Nat)}

/-- **One field is read back.** -/
theorem logicalFieldFromRegistryNode_json (hname : f.name ≠ [] ∧ ValidUtf8 f.name)
    (htype : f.type = some t) (htext : JsonText maxJsonNestingDepth (logicalTypeJson t))
    (hobject : ∃ members, logicalTypeJson t = jsonObject members)
    (hfield : JsonText maxJsonNestingDepth (logicalFieldJson f))
    (hdecode : Decodes isFloat decodeType t) (hview : Shows isFloat (logicalFieldJson f) view)
    (budget : Nat) :
    logicalFieldFromRegistryNode isFloat decodeType view (fieldNodes f + budget)
      = .ok (f, budget) := by
  have hcount : (fieldMembers f).length ≤ maxJsonObjectFields := Nat.le_of_ble_eq_true rfl
  have hm : ∀ m ∈ fieldMembers f, ValidUtf8 m.1 ∧ JsonText maxJsonNestingDepth m.2 := by
    rw [fieldMembers, forall_mem_cons, forall_mem_cons, forall_mem_singleton, htype]
    exact ⟨⟨validUtf8_bytes rfl, .string _ hname.2⟩,
      ⟨validUtf8_bytes rfl, .bool _ _⟩, validUtf8_bytes rfl, htext⟩
  rw [logicalFieldJson_eq] at hfield hview
  obtain ⟨base, rfl⟩ := shows_jsonObject isFloat hfield hview
  obtain ⟨nameView, hnameView, hnameMember⟩ := requiredObjectMember_some isFloat hcount hm
    (show lastMember (bytes "name") (fieldMembers f) = some (jsonString f.name) by rfl) base "field"
  obtain ⟨typeView, htypeView, htypeMember⟩ := requiredObjectMember_some isFloat hcount hm
    (show lastMember (bytes "type") (fieldMembers f) = some (valueTypeJson f.type) by rfl) base
    "field"
  obtain ⟨out, hout, hrel⟩ := objectMember_last isFloat hcount hm base (bytes "nullable")
  rw [show lastMember (bytes "nullable") (fieldMembers f) = some (jsonBool f.nullable) by rfl]
    at hrel
  cases hrel with
  | @some _ nullableView hnullable =>
    obtain rfl := shows_jsonString isFloat hname.2 hnameView
    obtain rfl := shows_jsonBool isFloat hnullable
    rw [htype, valueTypeJson] at htypeView
    obtain ⟨members, hmembers⟩ := hobject
    have hnode := hdecode typeView budget htypeView
    rw [hmembers] at htypeView htext
    obtain ⟨typeBase, rfl⟩ := shows_jsonObject isFloat htext htypeView
    have hnodes : fieldNodes f + budget = (typeNodes t + budget) + 1 := by
      obtain ⟨n, v, b⟩ := f
      cases htype
      rw [fieldNodes, valueNodes]
      omega
    rw [logicalFieldFromRegistryNode, hnodes, consumeNode]
    simp only [ok_bind, hnameMember, hname.1, if_false, htypeMember, hout, hnode, ← htype]

theorem logicalTypeJson_object (t : LogicalType) :
    ∃ members, logicalTypeJson t = jsonObject members := by
  cases t with
  | scalar | struct | list => exact ⟨_, rfl⟩

/-- **An array of fields is read back**, and takes its nodes from the budget. -/
theorem logicalFieldsFromRegistryArray_json {fs : List LogicalField} (hfs : StorableFields fs)
    (htypes : ∀ f ∈ fs, ∀ t, f.type = some t → t.Forall StorableNode)
    (hdecode : ∀ f ∈ fs, ∀ t, f.type = some t → Decodes isFloat decodeType t)
    (hdepth : 1 + jsonDepthFields fs ≤ maxJsonNestingDepth)
    (hview : Shows isFloat (jsonArray (logicalFieldJsons fs)) view) (context : String)
    (budget : Nat) :
    logicalFieldsFromRegistryArray isFloat decodeType view context (fieldsNodes fs + budget)
      = .ok (fs, budget) := by
  have hitems : ∀ i ∈ logicalFieldJsons fs, JsonText maxJsonNestingDepth i := fun i hi =>
    (jsonText_fields hfs (fun f hf t ht => jsonText_type (htypes f hf t ht)) i hi).mono (by omega)
  have harray : JsonText maxJsonNestingDepth (jsonArray (logicalFieldJsons fs)) :=
    (JsonText.array (jsonText_fields hfs fun f hf t ht => jsonText_type (htypes f hf t ht))).mono
      (by omega)
  obtain ⟨base, rfl⟩ := shows_jsonArray isFloat harray hview
  -- the fields so far are in the state, with the budget of those to come
  let I : List Bytes → List LogicalField × Nat → Prop := fun items s =>
    ∃ done rest, fs = done ++ rest ∧ items = logicalFieldJsons rest ∧
      s = (done, fieldsNodes rest + budget)
  let visit : List LogicalField × Nat → ValueView → Parsed (List LogicalField × Nat) :=
    fun s value =>
      if maxLogicalSchemaFieldsPerStruct ≤ s.1.length then
        schemaError (bytes "field count exceeds safety limit")
      else do
        let r ← logicalFieldFromRegistryNode isFloat decodeType value s.2
        .ok (s.1 ++ [r.1], r.2)
  have hvisit : ∀ i items s view, I (i :: items) s → Shows isFloat i view →
      ∃ s', visit s view = .ok s' ∧ I items s' := by
    rintro i items _ view ⟨done, rest, hsplit, hrest, rfl⟩ hi
    cases rest with
    | nil => cases hrest
    | cons f rest =>
      obtain ⟨rfl, rfl⟩ := cons.inj hrest
      have hf : f ∈ fs := by simp [hsplit]
      have hlength : ¬ maxLogicalSchemaFieldsPerStruct ≤ done.length := by
        have hle := hfs.count
        rw [hsplit, length_append, length_cons] at hle
        omega
      obtain ⟨t, ht⟩ := Option.ne_none_iff_exists'.mp (hfs.typed f hf)
      have htext := jsonText_type (htypes f hf t ht)
      have hfield := jsonText_field (hfs.named f hf).2 ht htext
      have hle := jsonDepthField_le hf
      have hfieldDepth := jsonDepthField_of_type ht
      have hread := logicalFieldFromRegistryNode_json isFloat (hfs.named f hf) ht
        (htext.mono (by omega)) (logicalTypeJson_object t) (hfield.mono (by omega))
          (hdecode f hf t ht)
        hi (fieldsNodes rest + budget)
      refine ⟨(done ++ [f], fieldsNodes rest + budget), ?_, done ++ [f], rest, by simp [hsplit],
        rfl, rfl⟩
      show (if maxLogicalSchemaFieldsPerStruct ≤ done.length then _ else _) = _
      rw [if_neg hlength, fieldsNodes, Nat.add_assoc, hread, ok_bind]
  have hstart : I (logicalFieldJsons fs) ([], fieldsNodes fs + budget) := ⟨[], fs, rfl, rfl, rfl⟩
  obtain ⟨s', hs', done, rest, hsplit, hrest, rfl⟩ :=
    forEachArrayElement_items isFloat hvisit hitems base hstart
  obtain rfl : rest = [] := by
    cases rest with
    | nil => rfl
    | cons f rest => cases hrest
  rw [append_nil] at hsplit
  rw [show fieldsNodes [] = 0 from rfl, Nat.zero_add, ← hsplit] at hs'
  exact hs'

end Fields

theorem scalarOfKindName_kindName (k : ScalarKind) : scalarOfKindName k.kindName = some k := by
  cases k <;> rfl

/-- A stored list or struct is found again under its kind. -/
theorem kind_of_partMembers (kind name : Bytes) {part : Bytes} (hkind : kind.all (· < 0x80) = true)
    (hname : name.all (· < 0x80) = true) (hne : name ≠ bytes "kind") (hpart : JsonText d part)
    (hd : d + 1 ≤ maxJsonNestingDepth)
    (hview : Shows isFloat (jsonObject (memberTexts (partMembers kind name part))) view) :
    ∃ base, view = .object (jsonObject (memberTexts (partMembers kind name part))) base ∧
      requiredObjectMember isFloat view (bytes "kind") "type" = .ok (.string kind) ∧
      ∀ context, ∃ partView, Shows isFloat part partView ∧
        requiredObjectMember isFloat view name context = .ok partView := by
  have hcount : (partMembers kind name part).length ≤ maxJsonObjectFields :=
    Nat.le_of_ble_eq_true rfl
  have hm : ∀ m ∈ partMembers kind name part,
      ValidUtf8 m.1 ∧ JsonText maxJsonNestingDepth m.2 := by
    rw [partMembers, forall_mem_cons, forall_mem_singleton]
    exact ⟨⟨validUtf8_bytes rfl, .string _ (validUtf8_bytes hkind)⟩, validUtf8_bytes hname,
      hpart.mono (by omega)⟩
  obtain ⟨base, rfl⟩ :=
    shows_jsonObject isFloat ((jsonText_part kind name hkind hname hpart).mono hd)
    hview
  have hlastKind : lastMember (bytes "kind") (partMembers kind name part)
      = some (jsonString kind) := by
    show (if name = bytes "kind" then some part else some (jsonString kind)) = _
    exact if_neg hne
  have hlastPart : lastMember name (partMembers kind name part) = some part := by
    show (if name = name then some part else _) = _
    exact if_pos rfl
  obtain ⟨kindView, hkindView, hkindMember⟩ :=
    requiredObjectMember_some isFloat hcount hm hlastKind base "type"
  obtain rfl := shows_jsonString isFloat (validUtf8_bytes hkind) hkindView
  exact ⟨base, rfl, hkindMember,
    fun context => requiredObjectMember_some isFloat hcount hm hlastPart base context⟩

/-- **A type is read back**, with room for its containers. -/
theorem decodes_logicalTypeFromRegistryNode (h : t.Forall StorableNode) :
    jsonDepth t ≤ maxJsonNestingDepth → ∀ {room : Nat}, jsonDepth t ≤ room →
      Decodes isFloat (logicalTypeFromRegistryNode isFloat room) t := by
  induction t with
  | scalar k =>
    intro hmax room hroom view budget hview
    obtain ⟨room, rfl⟩ : ∃ r, room = r + 1 := ⟨room - 1, by rw [jsonDepth] at hroom; omega⟩
    have hname : ValidUtf8 k.kindName := validUtf8_bytes k.kindName_ascii
    have hm : ∀ m ∈ [(bytes "kind", jsonString k.kindName)],
        ValidUtf8 m.1 ∧ JsonText maxJsonNestingDepth m.2 := by
      rw [forall_mem_singleton]
      exact ⟨validUtf8_bytes rfl, .string _ hname⟩
    have htext := jsonText_type h
    rw [logicalTypeJson_scalar] at htext hview
    obtain ⟨base, rfl⟩ := shows_jsonObject isFloat (htext.mono hmax) hview
    obtain ⟨kindView, hkindView, hkind⟩ := requiredObjectMember_some isFloat
      (Nat.le_of_ble_eq_true rfl) hm (lastMember_singleton _ _) base "type"
    obtain rfl := shows_jsonString isFloat hname hkindView
    rw [logicalTypeFromRegistryNode, show typeNodes (.scalar k) + budget = budget + 1 from
      Nat.add_comm 1 budget, consumeNode]
    simp only [ok_bind, hkind, scalarOfKindName_kindName]
  | struct fs ih =>
    intro hmax room hroom view budget hview
    rw [forall_struct] at h
    rw [jsonDepth] at hmax hroom
    obtain ⟨room, rfl⟩ : ∃ r, room = r + 1 := ⟨room - 1, by omega⟩
    have hitems := jsonText_fields h.1 fun f hf t ht => jsonText_type (h.2 f hf t ht)
    obtain ⟨base, rfl, hkind, hpart⟩ := kind_of_partMembers isFloat (bytes "struct")
      (bytes "fields") (by decide) (by decide) (by decide) (JsonText.array hitems)
      (by omega) hview
    obtain ⟨fieldsView, hfieldsView, hfieldsMember⟩ := hpart "struct type"
    have hdecode : ∀ f ∈ fs, ∀ t, f.type = some t →
        Decodes isFloat (logicalTypeFromRegistryNode isFloat room) t := by
      intro f hf t ht
      have hle := jsonDepthField_le hf
      rw [jsonDepthField_of_type ht] at hle
      exact ih f hf t ht (h.2 f hf t ht) (by omega) (by omega)
    have hread := logicalFieldsFromRegistryArray_json isFloat h.1 h.2 hdecode (by omega) hfieldsView
      "struct type" budget
    have hbudget : typeNodes (.struct fs) + budget = (fieldsNodes fs + budget) + 1 := by
      rw [typeNodes]
      omega
    rw [logicalTypeFromRegistryNode, hbudget, consumeNode]
    simp only [ok_bind, hkind]
    show (requiredObjectMember _ _ _ _ >>= _) = _
    rw [hfieldsMember]
    simp only [ok_bind, hread]
  | listNone => exact absurd rfl (forall_listNone.mp h)
  | listSome t ih =>
    intro hmax room hroom view budget hview
    rw [forall_listSome] at h
    rw [jsonDepth, jsonDepthValue] at hmax hroom
    obtain ⟨room, rfl⟩ : ∃ r, room = r + 1 := ⟨room - 1, by omega⟩
    have htext := jsonText_type h.2
    obtain ⟨base, rfl, hkind, hpart⟩ := kind_of_partMembers isFloat (bytes "list")
      (bytes "value") (by decide) (by decide) (by decide) htext (by omega) hview
    obtain ⟨valueView, hvalueView, hvalueMember⟩ := hpart "list type"
    have hread := ih h.2 (by omega) (show jsonDepth t ≤ room by omega) valueView budget hvalueView
    obtain ⟨members, hmembers⟩ := logicalTypeJson_object t
    rw [hmembers] at htext hvalueView
    obtain ⟨valueBase, rfl⟩ := shows_jsonObject isFloat (htext.mono (by omega)) hvalueView
    have hbudget : typeNodes (.list (some t)) + budget = (typeNodes t + budget) + 1 := by
      rw [typeNodes, valueNodes]
      omega
    rw [logicalTypeFromRegistryNode, hbudget, consumeNode]
    simp only [ok_bind, hkind]
    show (requiredObjectMember _ _ _ _ >>= _) = _
    rw [hvalueMember]
    simp only [ok_bind, hread]

end Decoding

/-! ### Documents -/

/-- A registry document: the canonical schema among other members. -/
def registryMembers (before : List (Bytes × Bytes)) (schema : LogicalSchema)
    (after : List (Bytes × Bytes)) : List (Bytes × Bytes) :=
  before ++ (bytes "canonical_schema", canonicalSchemaJson schema) :: after

theorem lastMember_registryMembers {before after : List (Bytes × Bytes)} (schema : LogicalSchema)
    (hafter : ∀ m ∈ after, m.1 ≠ bytes "canonical_schema") :
    lastMember (bytes "canonical_schema") (registryMembers before schema after)
      = some (canonicalSchemaJson schema) := by
  rw [lastMember, registryMembers, foldl_append, foldl_cons, if_pos rfl]
  induction after with
  | nil => rfl
  | cons m after ih =>
    rw [foldl_cons, if_neg (hafter m mem_cons_self)]
    exact ih fun x hx => hafter x (mem_cons_of_mem _ hx)

/-- The text of a schema that fits is a value within the limits. -/
theorem jsonText_canonicalSchema {schema : LogicalSchema} (h : schema.Storable) :
    JsonText (jsonDepthFields schema.fields + 2) (canonicalSchemaJson schema) := by
  have hitems := jsonText_fields h.fields fun f hf t ht => jsonText_type (h.types f hf t ht)
  rw [canonicalSchemaJson_eq]
  refine JsonText.objectOf (Nat.le_of_ble_eq_true rfl) ?_
  rw [forall_mem_singleton]
  exact ⟨rfl, .array hitems⟩

/-- **The canonical schema is read from the member that holds it**, the last of its name. -/
theorem canonicalSchemaFromRegistryJson_lastMember (isFloat : Bytes → Bool)
    {schema : LogicalSchema} {members : List (Bytes × Bytes)} (hschema : schema.Storable)
    (hnodes : fieldsNodes schema.fields ≤ maxLogicalSchemaNodes)
    (hdepth : 3 + jsonDepthFields schema.fields ≤ maxJsonNestingDepth)
    (hm : ∀ m ∈ members, ValidUtf8 m.1 ∧ JsonText (maxJsonNestingDepth - 1) m.2)
    (hlast : lastMember (bytes "canonical_schema") members = some (canonicalSchemaJson schema))
    (hcount : members.length ≤ maxJsonObjectFields)
    (hsize : (jsonObject (memberTexts members)).length ≤ maxLogicalSchemaPayloadBytes) :
    canonicalSchemaFromRegistryJson isFloat (jsonObject (memberTexts members))
      = .ok (some schema) := by
  have hschemaText := jsonText_canonicalSchema hschema
  obtain ⟨fs⟩ := schema
  dsimp only at hnodes hdepth hschemaText
  have hmax : maxJsonNestingDepth = 512 := rfl
  have hitems : ∀ i ∈ logicalFieldJsons fs, JsonText (jsonDepthFields fs) i :=
    jsonText_fields hschema.fields fun f hf t ht => jsonText_type (hschema.types f hf t ht)
  have hfieldsMember : ∀ m ∈ [(bytes "fields", jsonArray (logicalFieldJsons fs))],
      ValidUtf8 m.1 ∧ JsonText maxJsonNestingDepth m.2 := by
    rw [forall_mem_singleton]
    exact ⟨validUtf8_bytes rfl, (JsonText.array hitems).mono (by omega)⟩
  have hdocument : JsonText maxJsonNestingDepth (jsonObject (memberTexts members)) :=
    JsonText.object (d := 511) hcount (fun m h => (hm m h).1) fun m h => (hm m h).2
  have hne : jsonObject (memberTexts members) ≠ [] := by
    rw [jsonObject]
    simp
  -- the document, its canonical schema, and the array of fields in it
  obtain ⟨out, hout, hrel⟩ := objectMember_last isFloat hcount
    (fun m h => ⟨(hm m h).1, (hm m h).2.mono (by omega)⟩) 0 (bytes "canonical_schema")
  rw [hlast] at hrel
  cases hrel with
  | some hcanonical =>
    rw [canonicalSchemaJson_eq] at hschemaText hcanonical
    obtain ⟨base, rfl⟩ := shows_jsonObject isFloat (hschemaText.mono (by omega)) hcanonical
    obtain ⟨fieldsView, hfieldsView, hfields⟩ := requiredObjectMember_some isFloat
      (Nat.le_of_ble_eq_true rfl) hfieldsMember (lastMember_singleton _ _) base "root schema"
    have hdecode : ∀ f ∈ fs, ∀ t, f.type = some t →
        Decodes isFloat (logicalTypeFromRegistryNode isFloat maxLogicalSchemaDepth) t := by
      intro f hf t ht
      have hle := jsonDepthField_le hf
      rw [jsonDepthField_of_type ht] at hle
      exact decodes_logicalTypeFromRegistryNode isFloat (hschema.types f hf t ht) (by omega)
        (show jsonDepth t ≤ 512 by omega)
    have hread := logicalFieldsFromRegistryArray_json isFloat hschema.fields hschema.types hdecode
      (show 1 + jsonDepthFields fs ≤ _ by omega) hfieldsView "root schema"
      (maxLogicalSchemaNodes - fieldsNodes fs)
    rw [Nat.add_sub_cancel' hnodes] at hread
    rw [canonicalSchemaFromRegistryJson, if_neg hne, if_neg (Nat.not_lt.mpr hsize),
      parseValue_jsonObject isFloat hdocument le_rfl, ok_bind]
    simp only [hout, ok_bind, hfields, hread]

theorem jsonText_registryMembers {schema : LogicalSchema} {before after : List (Bytes × Bytes)}
    (hschema : schema.Storable) (hdepth : 3 + jsonDepthFields schema.fields ≤ maxJsonNestingDepth)
    (hothers : ∀ m ∈ before ++ after, ValidUtf8 m.1 ∧ JsonText (maxJsonNestingDepth - 1) m.2) :
    ∀ m ∈ registryMembers before schema after,
      ValidUtf8 m.1 ∧ JsonText (maxJsonNestingDepth - 1) m.2 := by
  intro m hm
  rw [registryMembers, mem_append, mem_cons] at hm
  rcases hm with hm | rfl | hm
  · exact hothers m (mem_append_left _ hm)
  · have hkey : ValidUtf8 (bytes "canonical_schema") := validUtf8_bytes (by decide)
    exact ⟨hkey, (jsonText_canonicalSchema hschema).mono (by omega)⟩
  · exact hothers m (mem_append_right _ hm)

/-- **Registry schemas survive serialization.**  The limits are those of the decoder:
the size of the document, the number of nodes, the fields of a struct (in `Storable`)
and the nesting of containers, which bounds the nesting of types. -/
theorem canonicalSchemaFromRegistryJson_json (isFloat : Bytes → Bool) (schema : LogicalSchema)
    (before after : List (Bytes × Bytes)) (hschema : schema.Storable)
    (hnodes : fieldsNodes schema.fields ≤ maxLogicalSchemaNodes)
    (hdepth : 3 + jsonDepthFields schema.fields ≤ maxJsonNestingDepth)
    (hothers : ∀ m ∈ before ++ after, ValidUtf8 m.1 ∧ JsonText (maxJsonNestingDepth - 1) m.2)
    (hafter : ∀ m ∈ after, m.1 ≠ bytes "canonical_schema")
    (hcount : (registryMembers before schema after).length ≤ maxJsonObjectFields)
    (hsize : (jsonObject (memberTexts (registryMembers before schema after))).length
      ≤ maxLogicalSchemaPayloadBytes) :
    canonicalSchemaFromRegistryJson isFloat
      (jsonObject (memberTexts (registryMembers before schema after))) = .ok (some schema) :=
  canonicalSchemaFromRegistryJson_lastMember isFloat hschema hnodes hdepth
    (jsonText_registryMembers hschema hdepth hothers) (lastMember_registryMembers schema hafter)
    hcount hsize

/-- A list of structs whose field has a letter beyond ASCII and a quote in its name. -/
def storedSample : LogicalSchema :=
  ⟨[⟨bytes "a", some (.list
    (some (.struct [⟨[0xC3, 0xA9, byte '"'], some (.scalar .int64), false⟩]))),
    true⟩]⟩

theorem storedSample_storable : storedSample.Storable where
  fields :=
    { count := by decide
      named := by
        rintro f (_ | ⟨_, ⟨⟩⟩)
        exact ⟨by decide, validUtf8_bytes (by decide)⟩
      typed := by
        rintro f (_ | ⟨_, ⟨⟩⟩)
        exact Option.some_ne_none _ }
  types := by
    have hname : ValidUtf8 [0xC3, 0xA9, byte '"'] :=
      .cons (.two (by decide) (by decide) ⟨by decide, by decide⟩) (validUtf8_bytes (by decide))
    rintro f (_ | ⟨_, ⟨⟩⟩) t ⟨rfl⟩
    rw [forall_listSome, forall_struct]
    refine ⟨Option.some_ne_none _, ⟨by decide, ?_, ?_⟩, ?_⟩
    · rintro g (_ | ⟨_, ⟨⟩⟩)
      exact ⟨cons_ne_nil _ _, hname⟩
    · rintro g (_ | ⟨_, ⟨⟩⟩)
      exact Option.some_ne_none _
    · rintro g (_ | ⟨_, ⟨⟩⟩) u ⟨rfl⟩
      exact forall_scalar.mpr trivial

/-- The sample is read back from a document with another member before it. -/
theorem canonicalSchemaFromRegistryJson_json_sample :
    canonicalSchemaFromRegistryJson (fun _ => true) (jsonObject (memberTexts (registryMembers
      [(bytes "field_name_policy", jsonString (bytes "preserve"))] storedSample [])))
      = .ok (some storedSample) :=
  canonicalSchemaFromRegistryJson_json (fun _ => true) storedSample _ []
    storedSample_storable (by decide) (by decide)
    (by
      rintro m (_ | ⟨_, ⟨⟩⟩)
      exact ⟨validUtf8_bytes (by decide), .string _ (validUtf8_bytes (by decide))⟩)
    (by rintro m ⟨⟩) (by decide) (by decide +kernel)

/-! ### The document of the engine -/

/-- The texts of a variant are valid. -/
structure RegistryVariant.Valid (r : RegistryVariant) : Prop where
  sourcePath : ValidUtf8 r.sourcePath
  outputName : ValidUtf8 r.outputName
  schema : ValidUtf8 r.schema

theorem validUtf8_variantFamilyBase {name : Bytes} (h : ValidUtf8 name) :
    ValidUtf8 (variantFamilyBase name) := by
  rw [variantFamilyBase, versionedFieldBase]
  cases hparse : parseVersionedFieldName name with
  | none => exact h
  | some p =>
    -- the base stands before the underscore of the marker
    obtain ⟨digits, rfl, hne, -⟩ := parseVersionedFieldName_spec hparse
    have hbase : ValidUtf8 p.base := by
      simp only [append_assoc] at h
      exact h.before (show byte '_' < 0x80 by decide)
    simpa [hne] using hbase

theorem validUtf8_joinPath {parent child : Bytes} (hparent : ValidUtf8 parent)
    (hchild : ValidUtf8 child) : ValidUtf8 (joinPath parent child) := by
  rw [joinPath]
  split
  · exact hchild
  · exact (hparent.append (validUtf8_bytes rfl)).append hchild

theorem validUtf8_fieldStrings {fs : List LogicalField} (hfs : StorableFields fs)
    (ht : ∀ f ∈ fs, ∀ t, f.type = some t → ValidUtf8 (logicalTypeString t)) :
    ∀ s ∈ fieldStrings fs, ValidUtf8 s := by
  have heq : ∀ fs, fieldStrings fs = fs.map fieldString := by
    intro fs
    induction fs with
    | nil => rfl
    | cons f fs ih => rw [fieldStrings, ih, map_cons]
  intro s hs
  rw [heq, mem_map] at hs
  obtain ⟨f, hf, rfl⟩ := hs
  obtain ⟨t, htype⟩ := Option.ne_none_iff_exists'.mp (hfs.typed f hf)
  obtain ⟨n, v, b⟩ := f
  cases htype
  exact ((hfs.named _ hf).2.append (validUtf8_bytes rfl)).append (ht _ hf t rfl)

theorem validUtf8_logicalTypeString (h : t.Forall StorableNode) :
    ValidUtf8 (logicalTypeString t) := by
  induction t with
  | scalar k =>
    rw [logicalTypeString]
    cases k <;> exact validUtf8_bytes (by decide)
  | struct fs ih =>
    rw [forall_struct] at h
    have hfields := validUtf8_fieldStrings h.1 fun f hf t ht => ih f hf t ht (h.2 f hf t ht)
    rw [logicalTypeString]
    have hsep : ValidUtf8 (bytes ", ") := validUtf8_bytes (by decide)
    exact ((validUtf8_bytes (by decide)).append (hsep.intercalate hfields)).append
      (validUtf8_bytes (by decide))
  | listNone => exact absurd rfl (forall_listNone.mp h)
  | listSome t ih =>
    rw [forall_listSome] at h
    rw [logicalTypeString]
    exact ((validUtf8_bytes (by decide)).append (ih h.2)).append (validUtf8_bytes (by decide))

theorem collectRegistryVariants_eq (parent : Bytes) (fs : List LogicalField) :
    collectRegistryVariants fs parent = fs.flatMap (collectField · parent) := by
  induction fs with
  | nil => rfl
  | cons f fs ih => rw [collectRegistryVariants, ih, flatMap_cons]

theorem valid_collectField {parent : Bytes} (hparent : ValidUtf8 parent) (hname : ValidUtf8 f.name)
    (htype : f.type = some t) (ht : t.Forall StorableNode)
    (hnested : ∀ path, ValidUtf8 path → ∀ r ∈ collectNested t path, r.Valid) :
    ∀ r ∈ collectField f parent, r.Valid := by
  obtain ⟨n, v, b⟩ := f
  cases htype
  have hpath := validUtf8_joinPath hparent (validUtf8_variantFamilyBase hname)
  rw [collectField, forall_mem_cons]
  exact ⟨⟨hpath, hname, validUtf8_logicalTypeString ht⟩, hnested _ hpath⟩

theorem valid_collectRegistryVariants {parent : Bytes} (hparent : ValidUtf8 parent)
    {fs : List LogicalField} (hfs : StorableFields fs)
    (htypes : ∀ f ∈ fs, ∀ t, f.type = some t → t.Forall StorableNode)
    (hnested : ∀ f ∈ fs, ∀ t, f.type = some t → ∀ path, ValidUtf8 path →
      ∀ r ∈ collectNested t path, r.Valid) :
    ∀ r ∈ collectRegistryVariants fs parent, r.Valid := by
  intro r hr
  rw [collectRegistryVariants_eq, mem_flatMap] at hr
  obtain ⟨f, hf, hr⟩ := hr
  obtain ⟨t, htype⟩ := Option.ne_none_iff_exists'.mp (hfs.typed f hf)
  exact valid_collectField hparent (hfs.named f hf).2 htype (htypes f hf t htype)
    (hnested f hf t htype) r hr

/-- The variants below a type have valid texts. -/
theorem valid_collectNested (h : t.Forall StorableNode) :
    ∀ path, ValidUtf8 path → ∀ r ∈ collectNested t path, r.Valid := by
  induction t with
  | scalar k => exact fun _ _ r hr => absurd hr (by simp [collectNested])
  | struct fs ih =>
    intro path hpath
    rw [forall_struct] at h
    rw [collectNested]
    exact valid_collectRegistryVariants hpath h.1 h.2 fun f hf t ht => ih f hf t ht (h.2 f hf t ht)
  | listNone => exact absurd rfl (forall_listNone.mp h)
  | listSome t ih =>
    intro path hpath
    rw [forall_listSome] at h
    rw [collectNested, collectElement]
    split
    · exact ih h.2 _ (hpath.append (validUtf8_bytes (by decide)))
    · exact fun r hr => absurd hr not_mem_nil

/-- The members of a written version. -/
def versionMembers (r : RegistryVariant) (isCurrent : Bool) : List (Bytes × Bytes) :=
  [(bytes "output_name", jsonString r.outputName), (bytes "schema", jsonString r.schema),
    (bytes "is_most_compatible_current_version", jsonBool isCurrent)]

theorem jsonText_registryVersion {r : RegistryVariant} (hr : r.Valid) (isCurrent : Bool) :
    JsonText 1 (registryVersionJson r isCurrent) := by
  rw [show registryVersionJson r isCurrent
    = jsonObject (memberTexts (versionMembers r isCurrent)) from rfl]
  refine JsonText.objectOf (d := 0) (Nat.le_of_ble_eq_true rfl) ?_
  rw [versionMembers, forall_mem_cons, forall_mem_cons, forall_mem_singleton]
  exact ⟨⟨rfl, .string _ hr.outputName⟩, ⟨rfl, .string _ hr.schema⟩, rfl, .bool _ _⟩

/-- The member of a group: its source path, and its versions. -/
def groupMember (group : List RegistryVariant) : Bytes × Bytes :=
  ((group.head?.map RegistryVariant.sourcePath).getD [],
    jsonObject (memberTexts [(bytes "versions", jsonArray
      (group.zipIdx.map fun p => registryVersionJson p.1 (p.2 == currentIndex group)))]))

theorem jsonText_group {group : List RegistryVariant} (h : ∀ r ∈ group, r.Valid) :
    ValidUtf8 (groupMember group).1 ∧ JsonText 3 (groupMember group).2 := by
  constructor
  · cases group with
    | nil => exact .nil
    | cons r group => exact (h r mem_cons_self).sourcePath
  · refine JsonText.objectOf (d := 2) (Nat.le_of_ble_eq_true rfl) ?_
    rw [forall_mem_singleton]
    refine ⟨rfl, .array fun i hi => ?_⟩
    obtain ⟨⟨r, k⟩, hr, rfl⟩ := mem_map.mp hi
    exact jsonText_registryVersion (h r (fst_mem_of_mem_zipIdx hr)) _

/-- **The variants section is compact JSON.** -/
theorem jsonText_variants {records : List RegistryVariant} (h : ∀ r ∈ records, r.Valid)
    (hcount : (sortedRuns RegistryVariant.sourcePath records).length ≤ maxJsonObjectFields) :
    JsonText 4 (registryVariantsJson records) := by
  have htext : registryVariantsJson records = jsonObject (memberTexts
      ((sortedRuns RegistryVariant.sourcePath records).map groupMember)) := by
    rw [memberTexts, map_map]
    rfl
  have hgroup : ∀ m ∈ (sortedRuns RegistryVariant.sourcePath records).map groupMember,
      ValidUtf8 m.1 ∧ JsonText 3 m.2 := by
    intro m hm
    obtain ⟨group, hgroup, rfl⟩ := mem_map.mp hm
    exact jsonText_group fun r hr => h r
      ((sortedRuns_perm _ records).subset (mem_flatten.mpr ⟨group, hgroup, hr⟩))
  rw [htext]
  exact .object (by rwa [length_map]) (fun m hm => (hgroup m hm).1) fun m hm => (hgroup m hm).2

theorem LogicalSchema.Storable.variants {schema : LogicalSchema} (h : schema.Storable) :
    ∀ r ∈ collectRegistryVariants schema.fields [], r.Valid :=
  valid_collectRegistryVariants .nil h.fields h.types fun f hf t ht =>
    valid_collectNested (h.types f hf t ht)

/-- The members of the document before and after its schema. -/
def leadingMembers (fieldNamePolicy : Bytes) (generation : Int) : List (Bytes × Bytes) :=
  [(bytes "field_name_policy", jsonString fieldNamePolicy), (bytes "registry_version", jsonInt 1),
    (bytes "schema_generation", jsonInt generation)]

@[inherit_doc leadingMembers]
def trailingMembers (schema : LogicalSchema) : List (Bytes × Bytes) :=
  [(bytes "variants", registryVariantsJson (collectRegistryVariants schema.fields []))]

theorem registryDocument_eq (schema : LogicalSchema) (fieldNamePolicy : Bytes) (generation : Int) :
    registryDocument schema fieldNamePolicy generation
      = jsonObject (memberTexts (registryMembers (leadingMembers fieldNamePolicy generation) schema
        (trailingMembers schema))) := rfl

/-- A schema whose document the decoder accepts back. -/
structure LogicalSchema.Fits (schema : LogicalSchema) : Prop extends schema.Storable where
  nodes : fieldsNodes schema.fields ≤ maxLogicalSchemaNodes
  depth : 3 + jsonDepthFields schema.fields ≤ maxJsonNestingDepth
  paths : (sortedRuns RegistryVariant.sourcePath
    (collectRegistryVariants schema.fields [])).length ≤ maxJsonObjectFields

theorem LogicalSchema.Fits.others {schema : LogicalSchema} (h : schema.Fits)
    {fieldNamePolicy : Bytes} (hpolicy : ValidUtf8 fieldNamePolicy) {generation : Int}
    (hlo : int64Min ≤ generation) (hhi : generation ≤ int64Max) :
    ∀ m ∈ leadingMembers fieldNamePolicy generation ++ trailingMembers schema,
      ValidUtf8 m.1 ∧ JsonText (maxJsonNestingDepth - 1) m.2 := by
  have hvariants := jsonText_variants h.variants h.paths
  rw [forall_mem_append, leadingMembers, trailingMembers, forall_mem_cons, forall_mem_cons,
    forall_mem_singleton, forall_mem_singleton]
  exact ⟨⟨⟨validUtf8_bytes rfl, .string _ hpolicy⟩,
    ⟨validUtf8_bytes rfl, .int _ (n := 1) (by decide) (by decide)⟩,
    validUtf8_bytes rfl, .int _ hlo hhi⟩,
    validUtf8_bytes rfl, hvariants.mono (by decide)⟩

/-- **The schema of a published document is read back**, if the document is within the size
limit. -/
theorem canonicalSchemaFromRegistryJson_document (isFloat : Bytes → Bool) {schema : LogicalSchema}
    (h : schema.Fits) {fieldNamePolicy : Bytes} (hpolicy : ValidUtf8 fieldNamePolicy)
    {generation : Int} (hlo : int64Min ≤ generation) (hhi : generation ≤ int64Max)
    (hsize : (registryDocument schema fieldNamePolicy generation).length
      ≤ maxLogicalSchemaPayloadBytes) :
    canonicalSchemaFromRegistryJson isFloat (registryDocument schema fieldNamePolicy generation)
      = .ok (some schema) := by
  rw [registryDocument_eq] at hsize ⊢
  exact canonicalSchemaFromRegistryJson_lastMember isFloat h.toStorable h.nodes h.depth
    (jsonText_registryMembers h.toStorable h.depth (h.others hpolicy hlo hhi))
    (lastMember_registryMembers schema (by simp [trailingMembers, bytes]))
    (Nat.le_of_ble_eq_true rfl) hsize

end SchemaSanitizer
