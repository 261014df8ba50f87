/-
SchemaSanitizer/Merge.lean

The recursive merge of an inferred schema into the canonical one
(`schema_registry/schema_registry.cc`).

The source mutates one output vector, with hash indexes over it, and appends
drift events to vectors that are thrown away when a nested merge fails.  Here
every function returns the new vector together with the events it emits, and
`none` for a failed merge.  The two indexes are functions of the output vector:
`newestPosition` is `by_name` (a later field of the same name overwrites an
earlier one), and the members of a family are the fields with its base, probed
from the newest to the oldest.

`merge_types` recurses on both arguments at once.  The model recurses on the
incoming type; for an incoming scalar or struct the descent through the lists of
the base is a recursion of its own (`mergeScalarInto`, `mergeStructInto`), and
`mergeIncoming`, one turn of the loop of `merge_fields`, takes the merge of the
nested types as a function.
-/
import SchemaSanitizer.Evolution

namespace SchemaSanitizer

open Lib

/-! ### Drift events -/

/-- The texts of `drift_type`. -/
inductive DriftType
  | newlyAdded
  | typePromoted
  | newVersionGenerated
  deriving DecidableEq, Repr

/-- The text of a drift type. -/
def DriftType.text : DriftType → Bytes
  | .newlyAdded => bytes "newly_added"
  | .typePromoted => bytes "type_promoted"
  | .newVersionGenerated => bytes "new_version_generated"

/-- `DriftEvent`. -/
structure DriftEvent where
  sourcePath : Bytes
  outputName : Bytes
  driftType : DriftType
  previousSchema : Option Bytes
  newSchema : Bytes
  deriving DecidableEq, Repr

/-- A merged type and the events of merging it. -/
abbrev MergedType := LogicalType × List DriftEvent

/-- A merged field vector and the events of merging it. -/
abbrev MergedFields := List LogicalField × List DriftEvent

/-- The events of replacing a type: those of the nested merge, or a promotion if
the type changed without any. -/
def promotionDrifts (sourcePath outputName : Bytes) (before after : LogicalType)
    (drifts : List DriftEvent) : List DriftEvent :=
  if before ≠ after ∧ drifts = [] then
    [{ sourcePath, outputName, driftType := .typePromoted,
       previousSchema := some (logicalTypeString before),
       newSchema := logicalTypeString after }]
  else drifts

/-! ### Index of one level -/

/-- `by_name.find`: the newest field of a name, with its position. -/
def newestPosition (fields : List LogicalField) (name : Bytes) : Option (Nat × LogicalField) :=
  lastMatch? (fun i f => if f.name = name then some (i, f) else none) fields

/-- `families.contains`. -/
def familyContains (fields : List LogicalField) (base : Bytes) : Bool :=
  fields.any fun f => familyBaseName f == base

/-- `next_version` of a family. -/
def nextVersion (fields : List LogicalField) (base : Bytes) : Nat :=
  fields.foldl (fun version f =>
    match parseVersionedFieldName f.name with
    | some parsed => if parsed.base = base then max version (parsed.version + 1) else version
    | none => version) 2

/-- `next_variant_name`: the first unused version name, counting from the
family's next version. -/
def nextVariantName (fields : List LogicalField) (base : Bytes) (t : LogicalType) : Bytes :=
  let name := fun version => makeVersionedFieldName base version (variantSemanticType t)
  let used := fields.map FieldOf.name
  name (firstFree (fun version => used.contains (name version)) used.length
    (nextVersion fields base))

/-! ### Scalars -/

/-- The scalar cases of `merge_types`. -/
def mergeScalarKinds (base incoming : ScalarKind) : Option ScalarKind :=
  if incoming = .null ∨ base = incoming then some base
  else if base = .float64 ∧ incoming = .int64 then some base
  else if base = .int64 ∧ incoming = .float64 then some incoming
  else if base = .null then some incoming
  else none

/-- The name of the wrapper field of a struct. -/
def wrapperKey (defaultKeyName : Bytes) : Bytes :=
  if defaultKeyName = [] then bytes "default_key" else defaultKeyName

mutual

/-- `merge_types` for an incoming scalar: scalars are joined, lists are entered,
and in a struct the scalar goes to the wrapper field. -/
def mergeScalarInto (key : Bytes) (k : ScalarKind) : LogicalType → Bytes → Option MergedType
  | .scalar b, _ => (mergeScalarKinds b k).map fun m => (.scalar m, [])
  | .struct fs, path =>
    (wrapScalar key k fs (joinPath path key)).map fun r => (.struct r.1, r.2)
  | .list v, path =>
    (mergeScalarValue key k v (path ++ bytes "[]")).map fun r => (.list (some r.1), r.2)

/-- The element of a list; a list without one takes nothing. -/
def mergeScalarValue (key : Bytes) (k : ScalarKind) :
    Option LogicalType → Bytes → Option MergedType
  | none, _ => none
  | some t, path => mergeScalarInto key k t path

/-- The wrapper field, once found: an untyped one takes the scalar silently. -/
def wrapScalarField (key : Bytes) (k : ScalarKind) :
    LogicalField → Bytes → Option (LogicalField × List DriftEvent)
  | ⟨n, v, b⟩, path =>
    match v, mergeScalarValue key k v path with
    | none, _ => some (⟨n, some (.scalar k), b⟩, [])
    | some t, merged =>
      merged.map fun r => (⟨n, some r.1, b⟩, promotionDrifts path n t r.1 r.2)

/-- `merge_struct_with_wrapped_scalar` on the fields of the struct: the first field
called `key`, or a new one at the end.  `path` is the path of the wrapper. -/
def wrapScalar (key : Bytes) (k : ScalarKind) : List LogicalField → Bytes → Option MergedFields
  | [], path =>
    some ([⟨key, some (.scalar k), true⟩],
      [⟨path, key, .newlyAdded, none, logicalTypeString (.scalar k)⟩])
  | f :: fs, path =>
    if f.name = key then (wrapScalarField key k f path).map fun r => (r.1 :: fs, r.2)
    else (wrapScalar key k fs path).map fun r => (f :: r.1, r.2)

end

/-! ### One turn of the loop over incoming fields -/

/-- `merge_into_existing_family_variant`: nothing to do if some member of the
family has exactly the incoming type, else evolve the newest member that can
take it.  `skipped` is the position of the base field that already failed. -/
def mergeIntoExistingFamilyVariant (out : List LogicalField) (base : Bytes)
    (skipped : Option Nat) (incomingType : LogicalType) (sourcePath : Bytes)
    (merge : LogicalType → Option MergedType) : Option MergedFields :=
  let candidate := fun (i : Nat) (f : LogicalField) => familyBaseName f = base ∧ skipped ≠ some i
  -- an exact historical shape is reused before any member is evolved
  if (lastMatch? (fun i f =>
      if candidate i f ∧ f.type = some incomingType then some () else none) out).isSome then
    some (out, [])
  else
    lastMatch? (fun i f =>
      if candidate i f then
        match f.type with
        | none => none
        | some t =>
          (merge t).map fun r =>
            (out.set i { f with type := some r.1 },
              promotionDrifts sourcePath f.name t r.1 r.2)
      else none) out

/-- Append the incoming field as a new version of its family. -/
def appendVariant (out : List LogicalField) (incoming : LogicalField) (incomingType : LogicalType)
    (base sourcePath : Bytes) (previous : Option Bytes) : MergedFields :=
  let name := nextVariantName out base incomingType
  (out ++ [{ incoming with name, nullable := true }],
    [⟨sourcePath, name, .newVersionGenerated, previous, fieldTypeString incoming⟩])

/-- Append the incoming field under its own name. -/
def appendNew (out : List LogicalField) (incoming : LogicalField) (sourcePath : Bytes) :
    MergedFields :=
  (out ++ [incoming],
    [⟨sourcePath, incoming.name, .newlyAdded, none, fieldTypeString incoming⟩])

/-- The body of the loop of `merge_fields`; `merge` merges the incoming type into
a given one. -/
def mergeIncoming (out : List LogicalField) (incoming : LogicalField) (sourcePath : Bytes)
    (merge : LogicalType → Option MergedType) : MergedFields :=
  match newestPosition out incoming.name, incoming.type with
  | none, none => appendNew out incoming sourcePath
  | none, some t =>
    let base := versionedFieldBase incoming.name
    if base ≠ [] ∧ familyContains out base = true then
      (mergeIntoExistingFamilyVariant out base none t sourcePath merge).getD
        (appendVariant out incoming t base sourcePath none)
    else appendNew out incoming sourcePath
  | some (position, field), some t =>
    match field.type with
    | none => (out, [])
    | some baseType =>
      match merge baseType with
      | some r =>
        (out.set position { field with type := some r.1 },
          promotionDrifts sourcePath field.name baseType r.1 r.2)
      | none =>
        let base := variantFamilyBase incoming.name
        (mergeIntoExistingFamilyVariant out base (some position) t sourcePath merge).getD
          (appendVariant out incoming t base sourcePath
            (some (logicalTypeString baseType)))
  | some _, none => (out, [])

/-! ### The recursion -/

mutual

/-- `merge_types` for an incoming struct: a struct merges the fields, a list is
entered, a scalar fails. -/
def mergeStructInto (merge : List LogicalField → Bytes → MergedFields) :
    LogicalType → Bytes → Option MergedType
  | .scalar _, _ => none
  | .struct fs, path => some (.struct (merge fs path).1, (merge fs path).2)
  | .list v, path =>
    (mergeStructValue merge v (path ++ bytes "[]")).map fun r => (.list (some r.1), r.2)

/-- The element of a list; a list without one takes nothing. -/
def mergeStructValue (merge : List LogicalField → Bytes → MergedFields) :
    Option LogicalType → Bytes → Option MergedType
  | none, _ => none
  | some t, path => mergeStructInto merge t path

end

mutual

/-- `merge_types`. -/
def mergeTypes (key : Bytes) : LogicalType → LogicalType → Bytes → Option MergedType
  | base, .scalar k, path => mergeScalarInto (wrapperKey key) k base path
  | base, .struct fs, path => mergeStructInto (fun bs p => mergeFields key bs fs p) base path
  | .list (some base), .list v, path =>
    (mergeElement key base v (path ++ bytes "[]")).map fun r => (.list (some r.1), r.2)
  | _, .list _, _ => none
termination_by structural _ t => t

/-- Merge an optional type into an element; a missing one changes nothing. -/
def mergeElement (key : Bytes) : LogicalType → Option LogicalType → Bytes → Option MergedType
  | base, none, _ => some (base, [])
  | base, some t, path => mergeTypes key base t path
termination_by structural _ v => v

/-- One incoming field, at the level with path `parentPath`. -/
def mergeField (key : Bytes) : List LogicalField → LogicalField → Bytes → MergedFields
  | out, ⟨n, v, b⟩, parentPath =>
    mergeIncoming out ⟨n, v, b⟩ (joinPath parentPath (sourceSegmentForOutput n))
      fun base => mergeElement key base v (joinPath parentPath (sourceSegmentForOutput n))
termination_by structural _ f => f

/-- `merge_fields`. -/
def mergeFields (key : Bytes) : List LogicalField → List LogicalField → Bytes → MergedFields
  | out, [], _ => (out, [])
  | out, f :: fs, parentPath =>
    let r := mergeField key out f parentPath
    let s := mergeFields key r.1 fs parentPath
    (s.1, r.2 ++ s.2)
termination_by structural _ fs => fs

end

end SchemaSanitizer
