/-
SchemaSanitizer/Names.lean

Versioned field names (`internal/planning/variant_field_names.cc`).  When a
field is observed with incompatible types, the registry keeps one column per
type: the field's own name, and siblings called `base_v2_string`,
`base_v3_struct`, ….  This file models the parser and the printer of such
names, byte by byte, and proves that they are inverse to each other on the
names the engine itself prints:

* `parseVersionedFieldName_spec`: what an accepted name looks like;
* `parseVersionedFieldName_make_eq`: a printed name is read back if its base is
  not empty and its version fits an `int`, and is no versioned name otherwise.

The parser accepts more than the printer prints: any lower-case suffix, and
version digits with leading zeros.
-/
import SchemaSanitizer.Bytes

namespace SchemaSanitizer

open List

/-- The parts of a name `base_vN_semantic`. -/
structure VersionedFieldName where
  base : Bytes
  version : Nat
  semanticType : Bytes
  deriving DecidableEq, Repr

/-- The range of a C++ `int`. -/
def intMin : Int := -2147483648

@[inherit_doc intMin]
def intMax : Int := 2147483647

/-- The text `_v` that starts the version part of a name. -/
def marker : Bytes := [byte '_', byte 'v']

/-! ### Parser and printer -/

/-- The loop over the suffix: lower-case letters and underscores, no two
underscores in a row. -/
def wordBytes : Bool → Bytes → Bool
  | _, [] => true
  | previousUnderscore, c :: cs =>
    ((byte 'a' ≤ c && c ≤ byte 'z') || c == byte '_') &&
      !(c == byte '_' && previousUnderscore) && wordBytes (c == byte '_') cs

/-- An acceptable suffix: words joined by single underscores. -/
def isSemanticSuffix (s : Bytes) : Bool :=
  wordBytes false s && s.head? != some (byte '_') && s.getLast? != some (byte '_')

/-- `parse_versioned_field_name`: split `base_vN_semantic` at the last `_v`. -/
def parseVersionedFieldName (name : Bytes) : Option VersionedFieldName :=
  if name.length < 7 then none
  else
    match rfind marker name with
    | none => none
    | some at_ =>
      if at_ = 0 ∨ at_ + 3 ≥ name.length then none
      else
        -- positions below are relative to the byte after the marker
        let tail := name.drop (at_ + 2)
        match tail.idxOf? (byte '_') with
        | none => none
        | some separator =>
          if separator = 0 ∨ separator + 1 ≥ tail.length then none
          else
            match fromChars intMin intMax (tail.take separator) with
            | some (version, []) =>
              let semanticType := tail.drop (separator + 1)
              if version < 2 ∨ isSemanticSuffix semanticType = false then none
              else some ⟨name.take at_, version.toNat, semanticType⟩
            | _ => none

/-- `make_versioned_field_name`. -/
def makeVersionedFieldName (base : Bytes) (version : Nat) (semanticType : Bytes) : Bytes :=
  base ++ marker ++ decimal version ++ [byte '_'] ++ semanticType

/-- `versioned_field_base`: the base of a versioned name, empty otherwise. -/
def versionedFieldBase (name : Bytes) : Bytes :=
  match parseVersionedFieldName name with
  | some parsed => parsed.base
  | none => []

/-- `variant_family_base`: the name under which all versions of a field
are grouped. -/
def variantFamilyBase (name : Bytes) : Bytes :=
  let base := versionedFieldBase name
  if base = [] then name else base

/-! ### What the parser accepts -/

variable {name : Bytes}

/-- **Shape of an accepted name**: base, marker, digits, underscore, suffix. -/
theorem parseVersionedFieldName_spec {p : VersionedFieldName}
    (h : parseVersionedFieldName name = some p) :
    ∃ digits, name = p.base ++ marker ++ digits ++ [byte '_'] ++ p.semanticType ∧
      p.base ≠ [] ∧ 2 ≤ p.version ∧ (p.version : Int) ≤ intMax ∧
      isSemanticSuffix p.semanticType = true := by
  unfold parseVersionedFieldName at h
  split at h
  · cases h
  split at h
  · cases h
  rename_i at_ hat
  split at h
  · cases h
  rename_i hbounds
  push Not at hbounds
  dsimp only at h
  split at h
  · cases h
  rename_i separator hsep
  split at h
  · cases h
  split at h
  · rename_i version hversion
    split at h
    · cases h
    rename_i hok
    push Not at hok
    obtain ⟨h2, hsuffix⟩ := hok
    cases h
    obtain ⟨post, hpost⟩ := rfind_spec hat
    have hlen : marker.length = 2 := rfl
    have htake : (name.take at_).length = at_ := by
      rw [length_take]; omega
    have htail : name.drop (at_ + 2) = post := by
      rw [hpost]
      exact drop_left' (by simp [htake, hlen])
    rw [htail] at hsep hversion hsuffix ⊢
    have hsplit : post = post.take separator ++ [byte '_'] ++ post.drop (separator + 1) := by
      have hlt : separator < post.length := (idxOf?_eq_some_iff.mp hsep).1
      have hget : post[separator] = byte '_' := by
        simpa using (idxOf?_eq_some_iff.mp hsep).2.1
      rw [append_assoc, ← hget, singleton_append, getElem_cons_drop,
        take_append_drop]
    have hmax : version ≤ intMax := (fromChars_range hversion).2
    refine ⟨post.take separator, ?_, ?_, ?_, ?_, by simpa using hsuffix⟩
    · conv_lhs => rw [hpost, hsplit]
      simp [append_assoc]
    · intro hnil
      have hzero : (name.take at_).length = 0 := congrArg length hnil
      exact hbounds.1 (htake.symm.trans hzero)
    · show 2 ≤ version.toNat
      omega
    · show (version.toNat : Int) ≤ intMax
      omega
  · cases h

/-! ### Printed names -/

variable {s : Bytes}

/-- A suffix the printer uses: accepted by the parser, long enough, and with
no marker of its own.  Every semantic type name is one. -/
structure IsPrintedSuffix (s : Bytes) : Prop where
  accepted : isSemanticSuffix s = true
  long : 2 ≤ s.length
  noMarker : rfind marker (byte '_' :: s) = none

theorem decimal_no_underscore (n : Nat) : byte '_' ∉ decimal n := by
  intro h
  have := decimal_isDigit h
  revert this
  decide

/-- The marker of a printed name is the one the printer wrote. -/
theorem rfind_marker_make (base : Bytes) (version : Nat) (hs : IsPrintedSuffix s) :
    rfind marker (makeVersionedFieldName base version s) = some base.length := by
  have hrest : rfind marker (byte 'v' :: (decimal version ++ byte '_' :: s)) = none := by
    have hdigits : rfind marker (byte 'v' :: decimal version) = none := by
      refine rfind_pair_eq_none ?_
      intro h
      rcases mem_cons.mp h with h | h
      · revert h; decide
      · exact decimal_no_underscore version h
    have hbreak : some (byte '_') ≠ some (byte 'v') := by decide
    exact rfind_pair_append hdigits hs.noMarker hbreak
  have hzero : rfind marker (byte '_' :: byte 'v' :: (decimal version ++ byte '_' :: s))
      = some 0 := by
    rw [rfind, hrest]
    rfl
  have happ := rfind_append hzero base
  simpa [makeVersionedFieldName, marker] using happ

theorem makeVersionedFieldName_length {base : Bytes} (version : Nat) (hb : base ≠ [])
    (hs : 2 ≤ s.length) : 7 ≤ (makeVersionedFieldName base version s).length := by
  have h1 : 0 < base.length := length_pos_iff.mpr hb
  have h2 : 0 < (decimal version).length := length_pos_iff.mpr (decimal_ne_nil version)
  have h3 : marker.length = 2 := rfl
  simp only [makeVersionedFieldName, length_append, length_singleton, h3]
  omega

/-- Reading a printed name: it is read back exactly when its base is not
empty and its version is at least two and fits an `int`. -/
theorem parseVersionedFieldName_make_eq (base : Bytes) (version : Nat) (hs : IsPrintedSuffix s) :
    parseVersionedFieldName (makeVersionedFieldName base version s) =
      if base ≠ [] ∧ 2 ≤ version ∧ (version : Int) ≤ intMax then some ⟨base, version, s⟩
      else none := by
  by_cases hb : base = []
  · -- the marker stands at position zero
    have hmark := rfind_marker_make base version hs
    rw [parseVersionedFieldName, hmark]
    simp [hb]
  have hlen := makeVersionedFieldName_length version hb hs.long
  have hpos : 0 < base.length := length_pos_iff.mpr hb
  have hdpos : 0 < (decimal version).length := length_pos_iff.mpr (decimal_ne_nil version)
  have hslen := hs.long
  have hname : makeVersionedFieldName base version s
      = (base ++ marker) ++ (decimal version ++ byte '_' :: s) := by
    simp [makeVersionedFieldName]
  have hmk : marker.length = 2 := rfl
  have hdrop : (makeVersionedFieldName base version s).drop (base.length + 2)
      = decimal version ++ byte '_' :: s := by
    rw [hname]
    exact drop_left' (by simp [hmk])
  have htake : (makeVersionedFieldName base version s).take base.length = base := by
    rw [hname, append_assoc]
    exact take_left' rfl
  have hidx : (decimal version ++ byte '_' :: s).idxOf? (byte '_')
      = some (decimal version).length := by
    rw [idxOf?_eq_some_iff]
    refine ⟨by simp, by simp, ?_⟩
    intro j hj
    rw [getElem_append_left hj]
    intro he
    exact decimal_no_underscore version (he ▸ getElem_mem hj)
  have hfrom : fromChars intMin intMax (decimal version)
      = if (version : Int) ≤ intMax then some ((version : Int), []) else none := by
    have hmin : intMin ≤ 0 := by decide
    have hend : ∀ c, ([] : Bytes).head? = some c → isDigit c = false := by simp
    simpa using fromChars_decimal intMax version hmin hend
  have hguard : ¬ (base.length = 0 ∨
      base.length + 3 ≥ (makeVersionedFieldName base version s).length) := by
    rw [hname]
    simp only [length_append, length_cons, hmk]
    omega
  have hsep : ¬ ((decimal version).length = 0 ∨
      (decimal version).length + 1 ≥ (decimal version ++ byte '_' :: s).length) := by
    simp only [length_append, length_cons]
    omega
  rw [parseVersionedFieldName, if_neg (by omega), rfind_marker_make base version hs]
  simp only [hdrop, hidx, if_neg hguard, if_neg hsep, take_left, hfrom, htake]
  have hsem : (decimal version ++ byte '_' :: s).drop ((decimal version).length + 1) = s := by
    rw [← drop_drop, drop_left]
    rfl
  by_cases hmax : (version : Int) ≤ intMax
  · simp only [if_pos hmax, hsem, hs.accepted, Bool.true_eq_false, or_false, Int.toNat_natCast]
    by_cases h2 : 2 ≤ version
    · rw [if_neg (by omega), if_pos ⟨hb, h2, hmax⟩]
    · rw [if_pos (by omega), if_neg (by tauto)]
  · simp only [if_neg hmax]
    rw [if_neg (by tauto)]

theorem makeVersionedFieldName_inj {base s' : Bytes} {version version' : Nat}
    (h : makeVersionedFieldName base version s = makeVersionedFieldName base version' s') :
    version = version' ∧ s = s' := by
  simp only [makeVersionedFieldName, append_assoc, append_cancel_left_eq] at h
  have hsplit : ∀ (n : Nat) (t : Bytes),
      (decimal n ++ ([byte '_'] ++ t)).takeWhile isDigit = decimal n := by
    intro n t
    rw [takeWhile_append_of_pos fun c hc => decimal_isDigit hc]
    have hstop : isDigit (byte '_') = false := by decide
    simp [hstop]
  have hversion : version = version' := by
    apply decimal_injective
    rw [← hsplit version s, h, hsplit]
  subst hversion
  exact ⟨rfl, by simpa using h⟩

/-! ### Families -/

theorem variantFamilyBase_of_parse {p : VersionedFieldName}
    (h : parseVersionedFieldName name = some p) : variantFamilyBase name = p.base := by
  obtain ⟨_, _, hb, _⟩ := parseVersionedFieldName_spec h
  simp [variantFamilyBase, versionedFieldBase, h, hb]

theorem variantFamilyBase_of_none (h : parseVersionedFieldName name = none) :
    variantFamilyBase name = name := by
  simp [variantFamilyBase, versionedFieldBase, h]

theorem variantFamilyBase_eq_self_iff :
    variantFamilyBase name = name ↔ parseVersionedFieldName name = none := by
  rcases e : parseVersionedFieldName name with - | p
  · simp [variantFamilyBase_of_none e]
  · obtain ⟨digits, hname, -⟩ := parseVersionedFieldName_spec e
    have hshort : p.base ≠ name := by
      intro he
      have hlen := congrArg length (he.trans hname)
      simp [marker] at hlen
    simp [variantFamilyBase_of_parse e, hshort]

end SchemaSanitizer
