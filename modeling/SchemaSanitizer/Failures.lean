/-
SchemaSanitizer/Failures.lean

When conversion fails.  One equation per shape of plan and value says what
`convertValue` computes, and one lemma per loop says when it fails: when the
conversion of some part fails.  A member of a version family never fails,
because its errors are dropped.
-/
import SchemaSanitizer.Convert
import SchemaSanitizer.Lib.Failure

namespace SchemaSanitizer

open Lib

section Equations

variable {opts : ConvertOptions} {plan : ColumnPlan} {v : Value}

theorem convertValue_empty (hv : v.containerIsEmpty = true) :
    convertValue opts plan v = .ok (convertNull plan) := by
  obtain ⟨_, _, _, _, _, _, _, _⟩ := plan
  rw [convertValue.eq_def]
  exact if_pos hv

theorem convertValue_null : convertValue opts plan .null = .ok (convertNull plan) := by
  obtain ⟨_, kind, _, _, _, _, _, _⟩ := plan
  cases kind <;> rfl

theorem convertValue_object {fields : Row} (hkind : plan.kind = .struct) (hne : fields ≠ []) :
    convertValue opts plan (.object fields) =
      if strictExtraField opts plan.layout plan.children fields ≠ [] then
        setConversionError plan .typeMismatch (bytes "unexpected field '" ++
          strictExtraField opts plan.layout plan.children fields ++ bytes "' in strict struct '" ++
          plan.name ++ bytes "'")
      else (convertSiblings opts plan.children
        (objectChildValue opts plan.layout plan.children fields) 0 plan.children).map .struct := by
  obtain ⟨_, kind, _, _, _, _, _, _⟩ := plan
  obtain rfl : kind = .struct := hkind
  obtain ⟨f, fs, rfl⟩ := List.exists_cons_of_ne_nil hne
  rw [convertValue, if_neg (by simp [Value.containerIsEmpty])]
  dsimp only
  split
  · rfl
  · rcases convertSiblings _ _ _ _ _ <;> rfl

theorem convertValue_wrapped (hkind : plan.kind = .struct) (hobject : v.isObject = false)
    (hnull : v ≠ .null) (hempty : v.containerIsEmpty = false) :
    convertValue opts plan v =
      if hasDefaultKeyChild opts plan.layout plan.children then
        (convertWrapped opts v plan.children).map .struct
      else expectedError plan (bytes "struct") := by
  obtain ⟨_, kind, _, _, _, _, _, _⟩ := plan
  obtain rfl : kind = .struct := hkind
  rw [convertValue.eq_def]
  dsimp only
  rw [if_neg (by simpa using hempty)]
  cases v with
  | null => exact absurd rfl hnull
  | object fields => exact absurd hobject Bool.noConfusion
  | bool | int | float | string | array =>
    dsimp only
    split
    · rcases convertWrapped _ _ _ <;> rfl
    · rfl

theorem convertValue_list (hkind : plan.kind = .list) (hnull : v ≠ .null)
    (hempty : v.containerIsEmpty = false) :
    convertValue opts plan v = convertList opts plan v plan.value := by
  obtain ⟨_, kind, _, _, _, _, _, _⟩ := plan
  obtain rfl : kind = .list := hkind
  rw [convertValue.eq_def]
  dsimp only
  rw [if_neg (by simpa using hempty)]
  cases v <;> first | rfl | exact absurd rfl hnull

theorem convertValue_scalar {kind : ScalarKind} (hkind : plan.kind = .scalar kind)
    (hempty : v.containerIsEmpty = false) :
    convertValue opts plan v = convertScalar opts plan kind v := by
  obtain ⟨_, k, _, _, _, _, _, _⟩ := plan
  obtain rfl : k = .scalar kind := hkind
  rw [convertValue.eq_def]
  dsimp only
  rw [if_neg (by simpa using hempty)]

end Equations

section Fails

variable {opts : ConvertOptions} {columns : List ColumnPlan} {plan column : ColumnPlan} {v : Value}

@[simp] theorem fails_setConversionError (code : DiagnosticCode) (detail : Bytes) :
    Fails (setConversionError plan code detail) := fails_error _

/-- A column fails only if it has no variant sibling to leave the value to. -/
theorem fails_convertSibling {index : Nat} {convert : Value → Except CoerceError Cell} :
    Fails (convertSibling opts columns index column v convert) ↔
      v ≠ .null ∧ column.hasVariantSibling = false ∧ Fails (convert v) := by
  by_cases hnull : v = .null
  · subst hnull
    simp
  cases hvariant : column.hasVariantSibling with
  | false => simp [convertSibling_alone opts columns index convert hvariant hnull, hnull]
  | true =>
    -- the value goes to another member, or an error is dropped
    have hok : ¬ Fails (convertSibling opts columns index column v convert) := by
      rw [convertSibling]
      · split
        · exact not_fails_ok _
        · split <;> exact not_fails_ok _
      · exact hnull
    simp [hok]

/-- A row fails exactly at a column that fails and has no variant sibling. -/
theorem fails_convertSiblings {source : Nat → ColumnPlan → Option Value} :
    ∀ {rest : List ColumnPlan} {index : Nat},
    Fails (convertSiblings opts columns source index rest) ↔
      ∃ k column, rest[k]? = some column ∧ column.hasVariantSibling = false ∧
        sourceValue (source (index + k) column) ≠ .null ∧
        Fails (convertValue opts column (sourceValue (source (index + k) column)))
  | [], _ => by
    rw [convertSiblings]
    simp
  | column :: rest, index => by
    rw [convertSiblings, fails_seq, fails_convertSibling, fails_convertSiblings]
    constructor
    · rintro (⟨hnull, hvariant, hfails⟩ | ⟨k, c, hc, h⟩)
      · exact ⟨0, column, rfl, hvariant, hnull, hfails⟩
      · refine ⟨k + 1, c, hc, ?_⟩
        rwa [Nat.add_right_comm, Nat.add_assoc] at h
    · rintro ⟨k, c, hc, hvariant, hnull, hfails⟩
      rcases k with - | k
      · obtain rfl : column = c := Option.some.inj hc
        exact .inl ⟨hnull, hvariant, hfails⟩
      · rw [Nat.add_comm k 1, ← Nat.add_assoc] at hnull hfails
        exact .inr ⟨k, c, hc, hvariant, hnull, hfails⟩

theorem fails_convertWrapped : ∀ {rest : List ColumnPlan},
    Fails (convertWrapped opts v rest) ↔
      ∃ child ∈ rest, fieldNameMatchesOutput opts.toNameOptions opts.defaultKeyName child.name =
      true ∧
        Fails (convertValue opts child v)
  | [] => by
    rw [convertWrapped]
    simp
  | child :: rest => by
    rw [convertWrapped, fails_seq, fails_convertWrapped]
    by_cases h : fieldNameMatchesOutput opts.toNameOptions opts.defaultKeyName child.name = true
    · simp [h]
    · simp [h]

/-- The parts of a value that a list column converts with its element plan. -/
def listParts : Value → List Value
  | .array elements => elements
  | v => [v]

theorem fails_convertList {elem : ColumnPlan} :
    Fails (convertList opts plan v (some elem)) ↔
    ∃ x ∈ listParts v, Fails (convertValue opts elem x) := by
  cases v with
  | array elements =>
    rw [convertList]
    show Fails (elements.mapM _ >>= fun cells => .ok (Cell.list cells)) ↔ _
    rw [fails_bind, fails_mapM]
    simp [listParts]
  | null | bool | int | float | string | object =>
    rw [convertList.eq_def]
    show Fails (convertValue opts elem _ >>= fun cell => .ok (Cell.list [cell])) ↔ _
    rw [fails_bind]
    simp [listParts]

end Fails

end SchemaSanitizer
