/-
SchemaSanitizer/LogicalType.lean

Logical schemas (`sanitize/core/logical_schema.hh`) and the type helpers of the
registry (`schema_registry/schema_registry_types.cc`): equality, semantic
suffixes, type strings and source paths.

A `LogicalType` is a scalar, a struct with an ordered list of fields, or a list.
As in the source a list may lack its element type and a field its type.  The
type is nested through `List`, `Option` and the field record, so every
recursive function below comes with helpers for the containers.  Proofs use
`LogicalType.ind` instead, whose struct case speaks about the typed fields, and
properties of whole trees are stated through `LogicalType.subtypes`.
-/
import SchemaSanitizer.Names

namespace SchemaSanitizer

open List

/-! ### Types, fields and schemas -/

/-- The scalar members of `LogicalKind`. -/
inductive ScalarKind
  | null
  | bool
  | int64
  | float64
  | utf8
  | timestampNs
  | date32
  | time32s
  deriving DecidableEq, Repr

/-- A `LogicalField` over the type representation `τ`. -/
structure FieldOf (τ : Type) where
  name : Bytes
  type : Option τ
  nullable : Bool := true
  deriving DecidableEq, Repr

/-- `sanitize::LogicalType`. -/
inductive LogicalType
  | scalar (kind : ScalarKind)
  | struct (fields : List (FieldOf LogicalType))
  | list (value : Option LogicalType)

/-- `sanitize::LogicalField`. -/
abbrev LogicalField := FieldOf LogicalType

/-- `sanitize::LogicalSchema`. -/
structure LogicalSchema where
  fields : List LogicalField

/-- Induction over logical types: a struct is reached from the types of its
typed fields, a list from its element type. -/
@[induction_eliminator]
theorem LogicalType.ind {motive : LogicalType → Prop}
    (scalar : ∀ kind, motive (.scalar kind))
    (struct : ∀ fields : List LogicalField,
      (∀ f ∈ fields, ∀ t, f.type = some t → motive t) → motive (.struct fields))
    (listNone : motive (.list none))
    (listSome : ∀ t, motive t → motive (.list (some t))) : ∀ t, motive t := by
  intro t
  refine @LogicalType.rec motive (fun fs => ∀ f ∈ fs, ∀ t, f.type = some t → motive t)
    (fun o => ∀ t, o = some t → motive t) (fun f => ∀ t, f.type = some t → motive t)
    scalar struct ?list ?nil ?cons ?none ?some ?field t
  case list =>
    intro v ih
    cases v with
    | none => exact listNone
    | some t => exact listSome t (ih t rfl)
  case nil => simp
  case cons =>
    intro f fs ihf ihfs g hg
    rcases mem_cons.mp hg with rfl | hg
    · exact ihf
    · exact ihfs g hg
  case none => simp
  case some =>
    rintro t ih _ ⟨rfl⟩
    exact ih
  case field =>
    intro n v b ih
    exact ih

/-! ### Equality -/

mutual

/-- `logical_type_equal`: same kind, same elements, same fields in the same
order. -/
def logicalTypeEqual : LogicalType → LogicalType → Bool
  | .scalar k, .scalar k' => k == k'
  | .struct fs, .struct fs' => fieldsEqual fs fs'
  | .list v, .list v' => valueEqual v v'
  | _, _ => false
termination_by structural t => t

/-- Equality of optional types. -/
def valueEqual : Option LogicalType → Option LogicalType → Bool
  | none, none => true
  | some t, some t' => logicalTypeEqual t t'
  | _, _ => false
termination_by structural v => v

/-- Equality of fields: name, nullability and type. -/
def fieldEqual : LogicalField → LogicalField → Bool
  | ⟨n, v, b⟩, ⟨n', v', b'⟩ => n == n' && b == b' && valueEqual v v'
termination_by structural f => f

/-- Equality of field vectors. -/
def fieldsEqual : List LogicalField → List LogicalField → Bool
  | [], [] => true
  | f :: fs, f' :: fs' => fieldEqual f f' && fieldsEqual fs fs'
  | _, _ => false
termination_by structural fs => fs

end

theorem valueEqual_iff {v : Option LogicalType}
    (hv : ∀ t, v = some t → ∀ t', logicalTypeEqual t t' = true ↔ t = t')
    (v' : Option LogicalType) : valueEqual v v' = true ↔ v = v' := by
  rcases v with - | t <;> rcases v' with - | t'
  · simp [valueEqual]
  · simp [valueEqual]
  · simp [valueEqual]
  · simp [valueEqual, hv t rfl]

theorem fieldsEqual_iff : ∀ {fs : List LogicalField},
    (∀ f ∈ fs, ∀ t, f.type = some t → ∀ t', logicalTypeEqual t t' = true ↔ t = t') →
    ∀ fs', fieldsEqual fs fs' = true ↔ fs = fs'
  | [], _, [] => by simp [fieldsEqual]
  | [], _, _ :: _ => by simp [fieldsEqual]
  | _ :: _, _, [] => by simp [fieldsEqual]
  | ⟨n, v, b⟩ :: fs, h, ⟨n', v', b'⟩ :: fs' => by
    have ih := fieldsEqual_iff (fun f hf => h f (mem_cons_of_mem _ hf)) fs'
    have hv := valueEqual_iff (h _ mem_cons_self) v'
    simp only [fieldsEqual, fieldEqual, Bool.and_eq_true, beq_iff_eq, hv, ih,
      cons.injEq, FieldOf.mk.injEq]
    tauto

/-- **`logical_type_equal` decides equality of the trees.** -/
theorem logicalTypeEqual_iff (t : LogicalType) : ∀ t', logicalTypeEqual t t' = true ↔ t = t' := by
  induction t with
  | scalar k =>
    intro t'
    cases t' <;> simp [logicalTypeEqual]
  | struct fs ih =>
    intro t'
    cases t' <;> simp [logicalTypeEqual, fieldsEqual_iff ih]
  | listNone =>
    intro t'
    cases t' <;> simp [logicalTypeEqual, valueEqual_iff]
  | listSome t ih =>
    intro t'
    have hv : ∀ u, some t = some u → ∀ t', logicalTypeEqual u t' = true ↔ u = t' := by
      rintro u ⟨rfl⟩
      exact ih
    cases t' <;> simp [logicalTypeEqual, valueEqual_iff hv]

instance : DecidableEq LogicalType := fun t t' =>
  decidable_of_iff _ (logicalTypeEqual_iff t t')

instance : DecidableEq LogicalSchema := fun s s' =>
  decidable_of_iff (s.fields = s'.fields) (by cases s; cases s'; simp)

/-! ### Subtrees -/

mutual

/-- All types that occur in a type, the type itself first. -/
def LogicalType.subtypes : LogicalType → List LogicalType
  | .scalar k => [.scalar k]
  | .struct fs => .struct fs :: subtypesFields fs
  | .list v => .list v :: subtypesValue v

/-- The types that occur in an optional type. -/
def subtypesValue : Option LogicalType → List LogicalType
  | none => []
  | some t => t.subtypes

/-- The types that occur in a field. -/
def subtypesField : LogicalField → List LogicalType
  | ⟨_, v, _⟩ => subtypesValue v

/-- The types that occur in a field vector. -/
def subtypesFields : List LogicalField → List LogicalType
  | [] => []
  | f :: fs => subtypesField f ++ subtypesFields fs

end

variable {t : LogicalType}

/-- `P` holds of every type that occurs in `t`. -/
def LogicalType.Forall (P : LogicalType → Prop) (t : LogicalType) : Prop :=
  ∀ s ∈ t.subtypes, P s

instance (P : LogicalType → Prop) [DecidablePred P] : DecidablePred (LogicalType.Forall P) :=
  fun t => inferInstanceAs (Decidable (∀ s ∈ t.subtypes, P s))

theorem mem_subtypesFields {s : LogicalType} : ∀ {fs : List LogicalField},
    s ∈ subtypesFields fs ↔ ∃ f ∈ fs, ∃ t, f.type = some t ∧ s ∈ t.subtypes
  | [] => by simp [subtypesFields]
  | ⟨n, none, b⟩ :: fs => by
    simp [subtypesFields, subtypesField, subtypesValue, mem_subtypesFields]
  | ⟨n, some t, b⟩ :: fs => by
    simp [subtypesFields, subtypesField, subtypesValue, mem_subtypesFields]

section Forall

variable {P Q : LogicalType → Prop}

@[simp] theorem forall_scalar {k : ScalarKind} :
    (LogicalType.scalar k).Forall P ↔ P (.scalar k) := by
  simp [LogicalType.Forall, LogicalType.subtypes]

theorem forall_struct {fs : List LogicalField} :
    (LogicalType.struct fs).Forall P ↔
      P (.struct fs) ∧ ∀ f ∈ fs, ∀ t, f.type = some t → t.Forall P := by
  simp only [LogicalType.Forall, LogicalType.subtypes, forall_mem_cons, mem_subtypesFields]
  refine and_congr_right fun _ => ?_
  constructor
  · intro h f hf t ht s hs
    exact h s ⟨f, hf, t, ht, hs⟩
  · rintro h s ⟨f, hf, t, ht, hs⟩
    exact h f hf t ht s hs

@[simp] theorem forall_listNone : (LogicalType.list none).Forall P ↔ P (.list none) := by
  simp [LogicalType.Forall, LogicalType.subtypes, subtypesValue]

theorem forall_listSome :
    (LogicalType.list (some t)).Forall P ↔ P (.list (some t)) ∧ t.Forall P := by
  simp [LogicalType.Forall, LogicalType.subtypes, subtypesValue]

theorem LogicalType.mem_subtypes_self (t : LogicalType) : t ∈ t.subtypes := by
  cases t <;> simp [LogicalType.subtypes]

theorem LogicalType.Forall.self (h : t.Forall P) : P t :=
  h t t.mem_subtypes_self

theorem LogicalType.Forall.mono (hPQ : ∀ t, P t → Q t) (h : t.Forall P) : t.Forall Q :=
  fun s hs => hPQ s (h s hs)

end Forall

/-! ### Maps that work level by level -/

/-- A map of types that rebuilds every struct, and lists from their elements; the fields of a
struct then have images of types, or have become floats. -/
structure LevelMap (g : LogicalType → LogicalType)
    (level : List LogicalField → List LogicalField) : Prop where
  scalar : ∀ k, g (.scalar k) = .scalar k
  struct : ∀ fields, g (.struct fields) = .struct (level fields)
  list : ∀ v, g (.list v) = .list (v.map g)
  types : ∀ {fields f t}, f ∈ level fields → f.type = some t →
    (∃ f' ∈ fields, ∃ u, f'.type = some u ∧ g u = t) ∨ t = .scalar .float64

section LevelMap

variable {g : LogicalType → LogicalType} {level : List LogicalField → List LogicalField}
  {P : LogicalType → Prop}

/-- **Rule for such maps**: a relation between a type and its image holds if it holds at every
level, given the types of the fields. -/
theorem LevelMap.rule (hg : LevelMap g level) {R : LogicalType → LogicalType → Prop}
    (scalar : ∀ k, R (.scalar k) (.scalar k))
    (listNone : P (.list none) → R (.list none) (.list none))
    (listSome : ∀ {t u}, R t u → R (.list (some t)) (.list (some u)))
    (struct : ∀ {fields}, P (.struct fields) → (∀ f ∈ fields, ∀ t, f.type = some t → R t (g t)) →
      R (.struct fields) (.struct (level fields))) {t : LogicalType} (h : t.Forall P) :
        R t (g t) := by
  induction t with
  | scalar k =>
    rw [hg.scalar]
    exact scalar k
  | struct fields ih =>
    rw [hg.struct]
    exact struct h.self fun f hf t ht => ih f hf t ht ((forall_struct.mp h).2 f hf t ht)
  | listNone =>
    rw [hg.list]
    exact listNone h.self
  | listSome t ih =>
    rw [hg.list]
    exact listSome (ih (forall_listSome.mp h).2)

/-- What rebuilt levels have, all nodes have. -/
theorem LevelMap.all (hg : LevelMap g level) {Q : LogicalType → Prop} (hscalar : ∀ k, Q (.scalar k))
    (hnone : P (.list none) → Q (.list none)) (hsome : ∀ t, Q (.list (some t)))
    (hstruct : ∀ fields, P (.struct fields) → Q (.struct (level fields))) (h : t.Forall P) :
    (g t).Forall Q := by
  refine hg.rule (R := fun _ u => u.Forall Q) (fun k => forall_scalar.mpr (hscalar k))
    (fun hn => forall_listNone.mpr (hnone hn)) (fun hu => forall_listSome.mpr ⟨hsome _, hu⟩)
    (fun {fields} hlevel ih => ?_) h
  refine forall_struct.mpr ⟨hstruct fields hlevel, fun f hf t ht => ?_⟩
  rcases hg.types hf ht with ⟨f', hf', u, hu, rfl⟩ | rfl
  · exact ih f' hf' u hu
  · exact forall_scalar.mpr (hscalar _)

end LevelMap

/-! ### Semantic names, type strings and paths -/

/-- The suffix of a scalar in generated names. -/
def ScalarKind.semanticName : ScalarKind → Bytes
  | .null => bytes "null"
  | .bool => bytes "boolean"
  | .int64 => bytes "integer"
  | .float64 => bytes "float"
  | .utf8 => bytes "string"
  | .timestampNs => bytes "timestamp"
  | .date32 => bytes "date"
  | .time32s => bytes "time"

mutual

/-- `variant_semantic_type`: the suffix a generated name gives a type. -/
def variantSemanticType : LogicalType → Bytes
  | .scalar k => k.semanticName
  | .struct _ => bytes "struct"
  | .list v => elementSemanticType v ++ bytes "_array"

/-- The suffix of a list element; a missing one counts as null. -/
def elementSemanticType : Option LogicalType → Bytes
  | none => bytes "null"
  | some t => variantSemanticType t

end

/-- The name of a scalar in drift events. -/
def ScalarKind.typeName : ScalarKind → Bytes
  | .null => bytes "null"
  | .bool => bytes "bool"
  | .int64 => bytes "int64"
  | .float64 => bytes "double"
  | .utf8 => bytes "string"
  | .timestampNs => bytes "timestamp[ns]"
  | .date32 => bytes "date32[day]"
  | .time32s => bytes "time32[s]"

mutual

/-- `logical_type_string`. -/
def logicalTypeString : LogicalType → Bytes
  | .scalar k => k.typeName
  | .list v => bytes "list<item: " ++ valueTypeString v ++ bytes ">"
  | .struct fs => bytes "struct<" ++ (bytes ", ").intercalate (fieldStrings fs) ++ bytes ">"

/-- The string of an optional type; a missing one reads `null`. -/
def valueTypeString : Option LogicalType → Bytes
  | none => bytes "null"
  | some t => logicalTypeString t

/-- One `name: type` entry of a struct. -/
def fieldString : LogicalField → Bytes
  | ⟨n, v, _⟩ => n ++ bytes ": " ++ valueTypeString v

/-- The entries of a struct. -/
def fieldStrings : List LogicalField → List Bytes
  | [] => []
  | f :: fs => fieldString f :: fieldStrings fs

end

/-- `field_type_string`. -/
def fieldTypeString (f : LogicalField) : Bytes := valueTypeString f.type

/-- `source_segment_for_output`. -/
def sourceSegmentForOutput (outputSegment : Bytes) : Bytes := variantFamilyBase outputSegment

/-- `join_path`. -/
def joinPath (parent child : Bytes) : Bytes :=
  if parent = [] then child else parent ++ bytes "." ++ child

/-! ### Semantic names are printed suffixes -/

theorem wordBytes_append : ∀ {s t : Bytes} {prev : Bool}, wordBytes prev s = true →
    s.getLast? ≠ some (byte '_') → s ≠ [] → wordBytes false t = true →
    wordBytes prev (s ++ t) = true
  | [], _, _, _, _, hne, _ => absurd rfl hne
  | [c], t, prev, hs, hlast, _, ht => by
    have hc : (c == byte '_') = false := by simpa using hlast
    simp only [wordBytes, hc, Bool.and_true] at hs
    simp only [singleton_append, wordBytes, hc, hs, ht, Bool.and_true]
  | c :: d :: s, t, prev, hs, hlast, _, ht => by
    rw [wordBytes, Bool.and_eq_true] at hs
    have hlast' : (d :: s).getLast? ≠ some (byte '_') := by simpa using hlast
    have ih := wordBytes_append hs.2 hlast' (by simp) ht
    rw [cons_append, wordBytes, hs.1, ih, Bool.and_true]

theorem isPrintedSuffix_array {s : Bytes} (h : IsPrintedSuffix s) :
    IsPrintedSuffix (s ++ bytes "_array") where
  accepted := by
    have hne : s ≠ [] := ne_nil_of_length_pos (lt_of_lt_of_le two_pos h.long)
    have hacc := h.accepted
    simp only [isSemanticSuffix, Bool.and_eq_true, bne_iff_ne] at hacc ⊢
    obtain ⟨⟨hword, hhead⟩, hlast⟩ := hacc
    refine ⟨⟨wordBytes_append hword hlast hne (by decide), ?_⟩, ?_⟩
    · rwa [head?_append_of_ne_nil _ hne]
    · rw [getLast?_append_of_ne_nil _ (by decide)]
      decide
  long := by
    have := h.long
    rw [length_append]
    omega
  noMarker := by
    have hbreak : (bytes "_array").head? ≠ some (byte 'v') := by decide
    exact rfind_pair_append (s := byte '_' :: s) h.noMarker (by decide) hbreak

theorem isPrintedSuffix_semantic (t : LogicalType) : IsPrintedSuffix (variantSemanticType t) := by
  induction t with
  | scalar k => cases k <;> exact ⟨by decide, by decide, by decide⟩
  | struct fs _ =>
    show IsPrintedSuffix (bytes "struct")
    exact ⟨by decide, by decide, by decide⟩
  | listNone => exact ⟨by decide, by decide, by decide⟩
  | listSome t ih => exact isPrintedSuffix_array ih

/-- **A version name parses back**, whatever its base looks like. -/
theorem parseVersionedFieldName_variantName {base : Bytes} (hbase : base ≠ []) {version : Nat}
    (hlow : 2 ≤ version) (hhigh : version ≤ 2 ^ 31 - 1) (t : LogicalType) :
    parseVersionedFieldName (makeVersionedFieldName base version (variantSemanticType t)) =
      some ⟨base, version, variantSemanticType t⟩ := by
  rw [parseVersionedFieldName_make_eq base version (isPrintedSuffix_semantic t), if_pos]
  exact ⟨hbase, hlow, show (version : Int) ≤ 2147483647 by omega⟩

theorem parseVersionedFieldName_versionedBase :
    parseVersionedFieldName (makeVersionedFieldName (bytes "a_v3_string") 2
      (variantSemanticType (.list (some (.list (some (.scalar .int64))))))) =
        some ⟨bytes "a_v3_string", 2, bytes "integer_array_array"⟩ :=
  parseVersionedFieldName_variantName (by decide) le_rfl (by decide) _

end SchemaSanitizer
