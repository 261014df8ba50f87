/-
SchemaSanitizer/FieldNames.lean

Output field names (`planning/field_name_sanitizer.cc`).  A source key becomes
a column name in two steps.  `cleanFieldNameBase` rewrites the key alone, by
the policy; `cleanSiblingFieldNames` then looks at all siblings of one object
and gives keys with the same base a suffix of letters taken from a hash of the
key.

A clean name is a fixed point of the rewriting.  `policyBase_clean` says that
what a policy makes of a key is clean, and the closure lemmas below it say
which operations on names keep it: appending letters, taking off the suffix
`_flattened`, and taking the base of a versioned name.
-/
import SchemaSanitizer.Names

namespace SchemaSanitizer

open List

/-- `field_name_policy`, after validation. -/
inductive FieldNamePolicy
  | preserve
  | lowerAlpha
  | lowerSnake
  deriving DecidableEq, Repr

/-- The options that decide about names. -/
structure NameOptions where
  fieldNamePolicy : FieldNamePolicy
  defaultKeyName : Bytes
  deriving DecidableEq, Repr

/-! ### The rewriting of one name -/

/-- An ASCII letter in lower case; every other byte is refused. -/
def lowerAlpha (c : UInt8) : Option UInt8 :=
  if byte 'A' ≤ c ∧ c ≤ byte 'Z' then some (c + 32)
  else if byte 'a' ≤ c ∧ c ≤ byte 'z' then some c
  else none

/-- An ASCII letter in lower case, a digit, or an underscore. -/
def lowerSnake (c : UInt8) : UInt8 :=
  if byte 'A' ≤ c ∧ c ≤ byte 'Z' then c + 32
  else if (byte 'a' ≤ c ∧ c ≤ byte 'z') ∨ (byte '0' ≤ c ∧ c ≤ byte '9') ∨ c = byte '_' then c
  else byte '_'

/-- The loop of the `lower_snake` policy.  `started` says that the output is not
empty: underscores before the first letter, and repeated ones, are dropped. -/
def snakeLoop : (previousUnderscore started : Bool) → Bytes → Bytes
  | _, _, [] => []
  | previousUnderscore, started, c :: cs =>
    let clean := lowerSnake c
    if clean = byte '_' then
      if !previousUnderscore && started then clean :: snakeLoop true started cs
      else snakeLoop true started cs
    else clean :: snakeLoop false true cs

/-- The name of a key without a usable byte. -/
def fallbackName : Bytes := bytes "field"

/-- Whether a name starts with a digit. -/
def startsWithDigit (name : Bytes) : Bool :=
  match name with
  | [] => false
  | c :: _ => byte '0' ≤ c && c ≤ byte '9'

/-- `clean_field_name_base` for one policy. -/
def policyBase (policy : FieldNamePolicy) (dirty : Bytes) : Bytes :=
  match policy with
  | .preserve => dirty
  | .lowerSnake =>
    let out := (snakeLoop false false dirty).rdropWhile (· == byte '_')
    let out := if out = [] then fallbackName else out
    if startsWithDigit out then bytes "field_" ++ out else out
  | .lowerAlpha =>
    let out := dirty.filterMap lowerAlpha
    if out = [] then fallbackName else out

/-- `clean_field_name_base` for prepared options: the default key keeps its
name under every policy. -/
def cleanFieldNameBase (opts : NameOptions) (dirty : Bytes) : Bytes :=
  if dirty = opts.defaultKeyName then dirty
  else policyBase opts.fieldNamePolicy dirty

/-! ### Suffixes -/

/-- `hash_key64`: the 64-bit FNV-1a hash, with zero remapped. -/
def hashKey64 (s : Bytes) : UInt64 :=
  let h := s.foldl (fun h c => (h ^^^ c.toUInt64) * 1099511628211) 14695981039346656037
  if h = 0 then 1 else h

/-- The loop of `clean_with_suffix`: one letter per round, and a new hash of
the letters so far when the old one is used up. -/
def suffixLoop : Nat → UInt64 → Bytes → Bytes
  | 0, _, suffix => suffix
  | n + 1, hash, suffix =>
    let suffix := suffix ++ [byte 'a' + (hash % 26).toUInt8]
    let hash := hash / 26
    suffixLoop n (if hash = 0 then hashKey64 suffix else hash) suffix

/-- The letters `clean_with_suffix` appends. -/
def hashSuffix (dirty : Bytes) (length : Nat) : Bytes :=
  suffixLoop length (hashKey64 dirty) []

/-- `clean_with_suffix`. -/
def cleanWithSuffix (dirty base : Bytes) (length : Nat) : Bytes :=
  base ++ hashSuffix dirty length

/-- The lengths from `kInitialSuffixLength` to `kMaxSuffixLength`. -/
def suffixLengths : List Nat := [6, 7, 8, 9, 10, 11, 12, 13, 14, 15, 16]

@[inherit_doc suffixLengths]
def initialSuffixLength : Nat := 6

/-- `kFlattenedSuffix`. -/
def flattenedSuffix : Bytes := bytes "_flattened"

/-- `kSanitizedFlattenedSuffix`. -/
def sanitizedFlattenedSuffix : Bytes := bytes "flattened"

/-- `unflattened_output_name`: the name without its flattening suffix, empty
when it has none. -/
def unflattenedOutputName (outputName : Bytes) : Bytes :=
  if flattenedSuffix.isSuffixOf outputName then
    outputName.take (outputName.length - flattenedSuffix.length)
  else if sanitizedFlattenedSuffix.isSuffixOf outputName then
    outputName.take (outputName.length - sanitizedFlattenedSuffix.length)
  else []

/-- `field_name_matches_output` for one policy. -/
def policyMatchesOutput (policy : FieldNamePolicy) (dirty clean : Bytes) : Bool :=
  let base := policyBase policy dirty
  if clean = base then true
  else if policy = .lowerSnake ∧ versionedFieldBase clean ≠ [] ∧
    versionedFieldBase clean = base then
    true
  else if policy = .preserve then false
  else suffixLengths.any fun len => clean == cleanWithSuffix dirty base len

/-- `field_name_matches_output` for prepared options. -/
def fieldNameMatchesOutput (opts : NameOptions) (dirty clean : Bytes) : Bool :=
  if dirty = opts.defaultKeyName ∧ clean = dirty then true
  else policyMatchesOutput opts.fieldNamePolicy dirty clean

/-! ### Siblings -/

/-- The first name a key asks for: its base, with six letters when a sibling
has the same base. -/
def firstCandidate (opts : NameOptions) (dirtyNames : List Bytes) (dirty : Bytes) : Bytes :=
  let base := cleanFieldNameBase opts dirty
  if 1 < (dirtyNames.map (cleanFieldNameBase opts)).count base then
    cleanWithSuffix dirty base initialSuffixLength
  else base

/-- The loop over longer suffixes while the candidate is in use. -/
def lengthenCandidate (used : List Bytes) (dirty base : Bytes) : Bytes → List Nat → Bytes
  | candidate, [] => candidate
  | candidate, len :: lens =>
    if candidate ∈ used then lengthenCandidate used dirty base (cleanWithSuffix dirty base len) lens
    else candidate

/-- The last resort: append `z` while the candidate is in use.  One round more
than there are used names is always enough (`padCandidate_unused`). -/
def padCandidate (used : List Bytes) : Nat → Bytes → Bytes
  | 0, candidate => candidate
  | fuel + 1, candidate =>
    if candidate ∈ used then padCandidate used fuel (candidate ++ [byte 'z']) else candidate

/-- The name one key gets when the names `used` are taken. -/
def chooseName (opts : NameOptions) (dirtyNames used : List Bytes) (dirty : Bytes) : Bytes :=
  padCandidate used (used.length + 1)
    (lengthenCandidate used dirty (cleanFieldNameBase opts dirty)
      (firstCandidate opts dirtyNames dirty) suffixLengths)

/-- One round of the loop over the keys: the key at `index` gets its name. -/
def assignName (opts : NameOptions) (dirtyNames : List Bytes) (s : List Bytes × List Bytes)
    (index : Nat) : List Bytes × List Bytes :=
  let name := chooseName opts dirtyNames s.2 (dirtyNames.getD index [])
  (s.1.set index name, name :: s.2)

/-- The order in which keys get their names: by key, then by position. -/
def namingOrder (dirtyNames : List Bytes) : List Nat :=
  (List.range dirtyNames.length).insertionSort fun lhs rhs =>
    if dirtyNames.getD lhs [] = dirtyNames.getD rhs [] then lhs ≤ rhs
    else dirtyNames.getD lhs [] < dirtyNames.getD rhs []

/-- `clean_sibling_field_names`. -/
def cleanSiblingFieldNames (opts : NameOptions) (dirtyNames : List Bytes) : List Bytes :=
  if opts.fieldNamePolicy = .preserve then dirtyNames
  else
    let bases := dirtyNames.map (cleanFieldNameBase opts)
    if bases.dedup.length = dirtyNames.length then bases
    else
      ((namingOrder dirtyNames).foldl (assignName opts dirtyNames)
        (List.replicate dirtyNames.length [], [])).1

/-! ### Clean names -/

variable {name out : Bytes} {policy : FieldNamePolicy}

/-- A lower-case letter. -/
def IsLetter (c : UInt8) : Prop := byte 'a' ≤ c ∧ c ≤ byte 'z'

instance (c : UInt8) : Decidable (IsLetter c) := inferInstanceAs (Decidable (_ ∧ _))

/-- One step of the automaton that reads `lower_snake` names.  The state says
that an underscore may not follow: at the start, and after an underscore. -/
def snakeStep (noUnderscore : Bool) (c : UInt8) : Option Bool :=
  if IsLetter c ∨ (byte '0' ≤ c ∧ c ≤ byte '9') then some false
  else if c = byte '_' ∧ noUnderscore = false then some true
  else none

/-- A name the policy leaves as it is. -/
def CleanName (policy : FieldNamePolicy) (name : Bytes) : Prop :=
  match policy with
  | .preserve => True
  | .lowerAlpha => name ≠ [] ∧ ∀ c ∈ name, IsLetter c
  | .lowerSnake => name.foldlM snakeStep true = some false ∧ startsWithDigit name = false

theorem snakeStep_letter {b : Bool} {c : UInt8} (h : IsLetter c) : snakeStep b c = some false := by
  simp [snakeStep, h]

theorem snakeStep_underscore (b : Bool) :
    snakeStep b (byte '_') = if b then none else some true := by
  cases b <;> decide

/-- What the rewriting of a byte gives is an underscore or moves the automaton
to the state where anything may follow. -/
theorem snakeStep_lowerSnake {b : Bool} {c : UInt8} (h : lowerSnake c ≠ byte '_') :
    snakeStep b (lowerSnake c) = some false := by
  have key : ∀ c : UInt8, lowerSnake c = byte '_' ∨
      IsLetter (lowerSnake c) ∨ (byte '0' ≤ lowerSnake c ∧ lowerSnake c ≤ byte '9') := by
    decide +kernel
  simp [snakeStep, (key c).resolve_left h]

/-- The automaton reads bytes the rewriting leaves as they are. -/
theorem lowerSnake_of_step {b st : Bool} {c : UInt8} (h : snakeStep b c = some st) :
    lowerSnake c = c ∧ (st = true ↔ c = byte '_') ∧ (c = byte '_' → b = false) := by
  have key : ∀ c : UInt8, (IsLetter c ∨ (byte '0' ≤ c ∧ c ≤ byte '9')) →
      lowerSnake c = c ∧ c ≠ byte '_' := by
    decide +kernel
  unfold snakeStep at h
  split_ifs at h with h1 h2
  · cases h
    simp [key c h1]
  · cases h
    simp only [h2.1, h2.2, and_self, and_true, imp_self]
    decide

/-- What the snake case loop writes is in snake case. -/
theorem snakeLoop_run (cs : Bytes) : ∀ previous started : Bool,
    ∃ st, (snakeLoop previous started cs).foldlM snakeStep (previous || !started) = some st := by
  induction cs with
  | nil => intro previous started; exact ⟨_, rfl⟩
  | cons c cs ih =>
    intro previous started
    by_cases hc : lowerSnake c = byte '_'
    · by_cases hp : (!previous && started) = true
      · obtain ⟨rfl, rfl⟩ : previous = false ∧ started = true := by simpa using hp
        obtain ⟨st, hst⟩ := ih true true
        exact ⟨st, by simpa [snakeLoop, hc, snakeStep_underscore] using hst⟩
      · obtain ⟨st, hst⟩ := ih true started
        have hstate : (previous || !started) = true := by
          cases previous <;> cases started <;> simp_all
        refine ⟨st, ?_⟩
        simpa [snakeLoop, hc, hp, hstate] using hst
    · obtain ⟨st, hst⟩ := ih false true
      exact ⟨st, by simpa [snakeLoop, hc, snakeStep_lowerSnake hc] using hst⟩

/-- A name in snake case is left as it is. -/
theorem snakeLoop_of_run (cs : Bytes) : ∀ {previous started st : Bool},
    cs.foldlM snakeStep (previous || !started) = some st → snakeLoop previous started cs = cs := by
  induction cs with
  | nil => intro _ _ _ _; rfl
  | cons c cs ih =>
    intro previous started st h
    rw [foldlM_cons] at h
    obtain ⟨mid, hmid, hrest⟩ := Option.bind_eq_some_iff.mp h
    obtain ⟨hfix, hst, hallowed⟩ := lowerSnake_of_step hmid
    by_cases hc : c = byte '_'
    · have hp := hallowed hc
      obtain ⟨rfl, rfl⟩ : previous = false ∧ started = true := by
        cases previous <;> cases started <;> simp_all
      have hrec := @ih true true st (by simpa [hst.mpr hc] using hrest)
      rw [hc] at hfix
      simp [snakeLoop, hfix, hc, hrec]
    · have hmidf : mid = false := by
        cases mid
        · rfl
        · exact absurd (hst.mp rfl) hc
      have hrec := @ih false true st (by simpa [hmidf] using hrest)
      simp [snakeLoop, hfix, hc, hrec]

theorem snakeRun_true (h : name.foldlM snakeStep true = some true) :
    name = [] ∨ ∃ pre, name = pre ++ [byte '_'] := by
  rcases eq_nil_or_concat name with rfl | ⟨pre, c, rfl⟩
  · exact .inl rfl
  · rw [concat_eq_append, foldlM_append] at h
    obtain ⟨mid, -, hlast⟩ := Option.bind_eq_some_iff.mp h
    have hstep : snakeStep mid c = some true := by simpa using hlast
    exact .inr ⟨pre, by rw [(lowerSnake_of_step hstep).2.1.mp rfl, concat_eq_append]⟩

theorem snakeRun_rdropWhile {st : Bool}
    (h : name.foldlM snakeStep true = some st) (hne : name.rdropWhile (· == byte '_') ≠ []) :
    (name.rdropWhile (· == byte '_')).foldlM snakeStep true = some false := by
  obtain ⟨tail, htail⟩ := rdropWhile_prefix (· == byte '_') (l := name)
  rw [← htail, foldlM_append] at h
  obtain ⟨mid, hmid, -⟩ := Option.bind_eq_some_iff.mp h
  cases mid
  · exact hmid
  · -- the run cannot stop after an underscore: those were dropped
    rcases snakeRun_true hmid with hnil | ⟨pre, hpre⟩
    · exact absurd hnil hne
    · have hlast := rdropWhile_last_not (· == byte '_') name hne
      simp [hpre] at hlast

/-- Every policy produces a clean name. -/
theorem policyBase_clean (policy : FieldNamePolicy) (dirty : Bytes) :
    CleanName policy (policyBase policy dirty) := by
  rcases policy with - | - | -
  · trivial
  · -- letters only
    simp only [policyBase, CleanName]
    have key : ∀ c : UInt8, (lowerAlpha c).all (IsLetter ·) = true := by decide +kernel
    split_ifs with h
    · exact ⟨by decide, by decide +kernel⟩
    · refine ⟨h, fun d hd => ?_⟩
      obtain ⟨c, -, hc⟩ := mem_filterMap.mp hd
      simpa [hc] using key c
  · simp only [policyBase, CleanName]
    obtain ⟨st, hst⟩ := snakeLoop_run dirty false false
    set out := (snakeLoop false false dirty).rdropWhile (· == byte '_') with hout
    by_cases hnil : out = []
    · rw [if_pos hnil]
      decide
    · have hrun : out.foldlM snakeStep true = some false := snakeRun_rdropWhile hst hnil
      rw [if_neg hnil]
      split_ifs with hdigit
      · refine ⟨?_, rfl⟩
        -- after `field_` the automaton is back in its first state
        have hprefix : (bytes "field_").foldlM snakeStep true = some true := by decide
        rw [foldlM_append, hprefix]
        exact hrun
      · exact ⟨hrun, by simpa using hdigit⟩

/-- A clean name is left as it is. -/
theorem policyBase_of_clean (h : CleanName policy name) : policyBase policy name = name := by
  rcases policy with - | - | -
  · rfl
  · obtain ⟨hne, hletters⟩ := h
    have key : ∀ c : UInt8, IsLetter c → lowerAlpha c = some c := by decide +kernel
    have hfix : name.filterMap lowerAlpha = name := by
      rw [filterMap_congr (g := some) fun c hc => key c (hletters c hc), filterMap_some]
    simp [policyBase, hfix, hne]
  · obtain ⟨hrun, hdigit⟩ := h
    have hloop : snakeLoop false false name = name := snakeLoop_of_run name hrun
    have hne : name ≠ [] := by
      rintro rfl
      cases hrun
    have hdrop : name.rdropWhile (· == byte '_') = name := by
      rw [rdropWhile_eq_self_iff]
      intro hn hlast
      rw [← dropLast_append_getLast hn, foldlM_append] at hrun
      obtain ⟨mid, -, hstep⟩ := Option.bind_eq_some_iff.mp hrun
      have hstep : snakeStep mid (name.getLast hn) = some false := by simpa using hstep
      exact absurd ((lowerSnake_of_step hstep).2.1.mpr (by simpa using hlast)) (by simp)
    simp [policyBase, hloop, hdrop, hne, hdigit]

theorem CleanName.ne_nil (hp : policy ≠ .preserve) (h : CleanName policy name) : name ≠ [] := by
  rintro rfl
  rcases policy with - | - | -
  · exact hp rfl
  · exact h.1 rfl
  · cases h.1

theorem suffixLoop_spec (n : Nat) : ∀ (hash : UInt64) (suffix : Bytes),
    ∃ w : Bytes, suffixLoop n hash suffix = suffix ++ w ∧ w.length = n ∧ ∀ c ∈ w, IsLetter c := by
  have key : ∀ h : UInt64, IsLetter (byte 'a' + (h % 26).toUInt8) := by
    intro h
    have hlt : (h % 26).toNat < 26 := by
      rw [UInt64.toNat_mod]
      exact Nat.mod_lt _ (by decide)
    have hsmall : ∀ k : Fin 26, IsLetter (byte 'a' + (UInt8.ofNat k)) := by decide +kernel
    have heq : (h % 26).toUInt8 = UInt8.ofNat (h % 26).toNat := by
      simp [UInt64.toUInt8]
    rw [heq]
    exact hsmall ⟨_, hlt⟩
  induction n with
  | zero => intro hash suffix; exact ⟨[], by simp [suffixLoop], rfl, by simp⟩
  | succ n ih =>
    intro hash suffix
    obtain ⟨w, hw, hlen, hletters⟩ := ih (if hash / 26 = 0 then
      hashKey64 (suffix ++ [byte 'a' + (hash % 26).toUInt8]) else hash / 26)
      (suffix ++ [byte 'a' + (hash % 26).toUInt8])
    refine ⟨(byte 'a' + (hash % 26).toUInt8) :: w, ?_, by simp [hlen], ?_⟩
    · simp only [suffixLoop, hw, append_assoc, singleton_append]
    · intro c hc
      rcases mem_cons.mp hc with rfl | hc
      · exact key hash
      · exact hletters c hc

theorem length_hashSuffix (dirty : Bytes) (n : Nat) : (hashSuffix dirty n).length = n := by
  obtain ⟨w, hw, hlen, -⟩ := suffixLoop_spec n (hashKey64 dirty) []
  rw [hashSuffix, hw]
  exact hlen

theorem hashSuffix_letters (dirty : Bytes) (n : Nat) : ∀ c ∈ hashSuffix dirty n, IsLetter c := by
  obtain ⟨w, hw, -, hletters⟩ := suffixLoop_spec n (hashKey64 dirty) []
  rw [hashSuffix, hw]
  exact hletters

theorem CleanName.append_letters {w : Bytes}
    (h : CleanName policy name) (hw : ∀ c ∈ w, IsLetter c) : CleanName policy (name ++ w) := by
  rcases policy with - | - | -
  · trivial
  · refine ⟨by simp [h.1], fun c hc => ?_⟩
    exact (mem_append.mp hc).elim (h.2 c) (hw c)
  · obtain ⟨hrun, hdigit⟩ := h
    have hletters : ∀ w : Bytes, (∀ c ∈ w, IsLetter c) → w.foldlM snakeStep false = some false := by
      intro w hw
      induction w with
      | nil => rfl
      | cons c w ih =>
        rw [foldlM_cons, snakeStep_letter (hw c mem_cons_self)]
        exact ih fun d hd => hw d (mem_cons_of_mem c hd)
    refine ⟨?_, ?_⟩
    · rw [foldlM_append, hrun]
      exact hletters w hw
    · rcases name with - | ⟨c, cs⟩
      · cases hrun
      · exact hdigit

/-- A clean name cut before an underscore, or after anything that is not an
underscore, is clean. -/
theorem CleanName.of_append {p q : Bytes} (h : CleanName policy (p ++ q)) (hne : p ≠ [])
    (hcut : q.head? = some (byte '_') ∨ ¬ ∃ pre, p = pre ++ [byte '_']) : CleanName policy p := by
  rcases policy with - | - | -
  · trivial
  · exact ⟨hne, fun c hc => h.2 c (mem_append_left q hc)⟩
  · obtain ⟨hrun, hdigit⟩ := h
    rw [foldlM_append] at hrun
    obtain ⟨mid, hmid, hrest⟩ := Option.bind_eq_some_iff.mp hrun
    refine ⟨?_, ?_⟩
    · cases mid
      · exact hmid
      · rcases hcut with hq | hp
        · -- no underscore follows in this state
          rcases q with - | ⟨c, q⟩
          · cases hq
          · cases hq
            rw [foldlM_cons, snakeStep_underscore] at hrest
            cases hrest
        · exact absurd ((snakeRun_true hmid).resolve_left hne) hp
    · rcases p with - | ⟨c, cs⟩
      · exact absurd rfl hne
      · exact hdigit

/-- **The two flattened spellings**: a name that gives `name` back without its
suffix. -/
theorem unflattenedOutputName_eq (h : unflattenedOutputName out = name) (hne : name ≠ []) :
    out = name ++ flattenedSuffix ∨
      (out = name ++ sanitizedFlattenedSuffix ∧ ¬ ∃ pre, name = pre ++ [byte '_']) := by
  unfold unflattenedOutputName at h
  split_ifs at h with h1 h2
  · obtain ⟨p, rfl⟩ := isSuffixOf_iff_suffix.mp h1
    left
    rw [← h]
    simp
  · obtain ⟨p, rfl⟩ := isSuffixOf_iff_suffix.mp h2
    right
    have hp : p = name := by rw [← h]; simp
    subst hp
    refine ⟨rfl, ?_⟩
    rintro ⟨pre, rfl⟩
    refine h1 (isSuffixOf_iff_suffix.mpr ⟨pre, ?_⟩)
    show pre ++ flattenedSuffix = (pre ++ [byte '_']) ++ sanitizedFlattenedSuffix
    rw [append_assoc]
    rfl
  · exact absurd h.symm hne

theorem CleanName.unflattened (hc : CleanName policy out) (h : unflattenedOutputName out = name)
    (hne : name ≠ []) : CleanName policy name := by
  rcases unflattenedOutputName_eq h hne with rfl | ⟨rfl, hlast⟩
  · exact hc.of_append hne (.inl rfl)
  · exact hc.of_append hne (.inr hlast)

theorem variantFamilyBase_ne (h : variantFamilyBase out ≠ out) :
    variantFamilyBase out ≠ [] ∧ ∃ rest, out = variantFamilyBase out ++ byte '_' :: rest := by
  unfold variantFamilyBase versionedFieldBase at h ⊢
  rcases e : parseVersionedFieldName out with - | parsed
  · simp [e] at h
  · obtain ⟨digits, hname, hbase, -⟩ := parseVersionedFieldName_spec e
    simp only [hbase, if_false]
    refine ⟨hbase, byte 'v' :: (digits ++ [byte '_'] ++ parsed.semanticType), ?_⟩
    conv_lhs => rw [hname]
    simp [marker]

theorem CleanName.familyBase
    (hc : CleanName policy out) : CleanName policy (variantFamilyBase out) := by
  by_cases h : variantFamilyBase out = out
  · rw [h]
    exact hc
  · obtain ⟨hne, rest, hrest⟩ := variantFamilyBase_ne h
    rw [hrest] at hc
    exact hc.of_append hne (.inl rfl)

/-! ### Names of siblings -/

theorem padCandidate_eq (used : List Bytes) : ∀ (fuel : Nat) (candidate : Bytes),
    ∃ k, padCandidate used fuel candidate = candidate ++ replicate k (byte 'z') ∧
      (candidate ∉ used → k = 0) := by
  intro fuel
  induction fuel with
  | zero => intro candidate; exact ⟨0, by simp [padCandidate], fun _ => rfl⟩
  | succ fuel ih =>
    intro candidate
    by_cases h : candidate ∈ used
    · obtain ⟨k, hk, -⟩ := ih (candidate ++ [byte 'z'])
      refine ⟨k + 1, ?_, fun hn => absurd h hn⟩
      simp [padCandidate, h, hk, replicate_succ]
    · exact ⟨0, by simp [padCandidate, h], fun _ => rfl⟩

theorem padCandidate_mem {used : List Bytes} : ∀ {fuel : Nat} {candidate : Bytes},
    padCandidate used fuel candidate ∈ used →
    ∀ k ≤ fuel, candidate ++ replicate k (byte 'z') ∈ used := by
  intro fuel
  induction fuel with
  | zero =>
    intro candidate h k hk
    obtain rfl : k = 0 := by omega
    simpa [padCandidate] using h
  | succ fuel ih =>
    intro candidate h k hk
    by_cases hc : candidate ∈ used
    · rcases k with - | k
      · simpa using hc
      · have hpad : padCandidate used fuel (candidate ++ [byte 'z']) ∈ used := by
          simpa [padCandidate, hc] using h
        simpa [replicate_succ] using ih hpad k (by omega)
    · rw [padCandidate, if_neg hc] at h
      exact absurd h hc

/-- The last resort ends on a free name: the padded candidates are pairwise
different, and there is one more of them than used names. -/
theorem padCandidate_unused (used : List Bytes) (candidate : Bytes) :
    padCandidate used (used.length + 1) candidate ∉ used := by
  intro h
  have hall := padCandidate_mem h
  have hsub : (range (used.length + 1)).map
      (fun k => candidate ++ replicate k (byte 'z')) ⊆ used := by
    intro x hx
    obtain ⟨k, hk, rfl⟩ := mem_map.mp hx
    exact hall k (by have := mem_range.mp hk; omega)
  have hnodup : ((range (used.length + 1)).map
      (fun k => candidate ++ replicate k (byte 'z'))).Nodup := by
    refine List.Nodup.map (fun a b hab => ?_) nodup_range
    simpa using congrArg length (append_cancel_left hab)
  have hlen := (hnodup.subperm hsub).length_le
  simp at hlen

theorem lengthenCandidate_spec {used : List Bytes} {dirty base : Bytes} :
    ∀ {lens : List Nat} {candidate : Bytes}, candidate ∈ used → lens ≠ [] →
    ∃ len ∈ lens, lengthenCandidate used dirty base candidate lens =
    cleanWithSuffix dirty base len ∧
      (cleanWithSuffix dirty base len ∈ used → lens.getLast? = some len) := by
  intro lens
  induction lens with
  | nil => intro candidate _ hne; exact absurd rfl hne
  | cons len lens ih =>
    intro candidate hc _
    rw [lengthenCandidate, if_pos hc]
    rcases lens with - | ⟨next, lens⟩
    · exact ⟨len, mem_cons_self, rfl, fun _ => rfl⟩
    · by_cases hu : cleanWithSuffix dirty base len ∈ used
      · obtain ⟨l, hl, heq, hlast⟩ := ih hu (by simp)
        exact ⟨l, mem_cons_of_mem len hl, heq, fun h => by simpa using hlast h⟩
      · refine ⟨len, mem_cons_self, ?_, fun h => absurd h hu⟩
        rw [lengthenCandidate, if_neg hu]

section Siblings

variable {opts : NameOptions} {dirtyNames used : List Bytes} {dirty : Bytes}

theorem chooseName_of_unused (h : firstCandidate opts dirtyNames dirty ∉ used) :
    chooseName opts dirtyNames used dirty = firstCandidate opts dirtyNames dirty := by
  have hl : lengthenCandidate used dirty (cleanFieldNameBase opts dirty)
      (firstCandidate opts dirtyNames dirty) suffixLengths =
        firstCandidate opts dirtyNames dirty := by
    rw [suffixLengths, lengthenCandidate, if_neg h]
  obtain ⟨k, hk, hzero⟩ := padCandidate_eq used (used.length + 1)
    (firstCandidate opts dirtyNames dirty)
  rw [chooseName, hl, hk, hzero h]
  simp

/-- A name that replaces a taken candidate: at least six letters after the
base, and the flattening suffix only if the hash spells it. -/
def Replacement (opts : NameOptions) (dirty name : Bytes) : Prop :=
  ∃ w, name = cleanFieldNameBase opts dirty ++ w ∧ (∀ c ∈ w, IsLetter c) ∧ 6 ≤ w.length ∧
    (w = sanitizedFlattenedSuffix → hashSuffix dirty 9 = sanitizedFlattenedSuffix)

/-- A taken candidate is replaced by its base with letters appended. -/
theorem chooseName_of_used (h : firstCandidate opts dirtyNames dirty ∈ used) :
    Replacement opts dirty (chooseName opts dirtyNames used dirty) := by
  obtain ⟨len, hlen, heq, hlast⟩ :=
    @lengthenCandidate_spec used dirty (cleanFieldNameBase opts dirty) suffixLengths _ h (by decide)
  obtain ⟨k, hk, hzero⟩ := padCandidate_eq used (used.length + 1)
    (cleanWithSuffix dirty (cleanFieldNameBase opts dirty) len)
  have hbounds : ∀ l ∈ suffixLengths, 6 ≤ l := by decide
  refine ⟨hashSuffix dirty len ++ replicate k (byte 'z'), ?_, ?_, ?_, ?_⟩
  · rw [chooseName, heq, hk, cleanWithSuffix, append_assoc]
  · intro c hc
    rcases mem_append.mp hc with hc | hc
    · exact hashSuffix_letters dirty len c hc
    · rw [eq_of_mem_replicate hc]
      decide
  · rw [length_append, length_hashSuffix]
    exact Nat.le_add_right_of_le (hbounds len hlen)
  · intro hw
    have hlength : len + k = 9 := by
      have := congrArg length hw
      simpa [length_hashSuffix, sanitizedFlattenedSuffix, bytes] using this
    by_cases hu : cleanWithSuffix dirty (cleanFieldNameBase opts dirty) len ∈ used
    · -- padded names are longer than nine letters
      have h16 : some 16 = some len := hlast hu
      cases h16
      omega
    · obtain rfl := hzero hu
      obtain rfl : len = 9 := by omega
      simpa using hw

theorem chooseName_unused : chooseName opts dirtyNames used dirty ∉ used :=
  padCandidate_unused used _

/-- Two keys ask for one name: the one at `k` has it, the one at `i` got
another. -/
def DisplacedBy (opts : NameOptions) (dirtyNames out : List Bytes) (i k : Nat) : Prop :=
  ∃ d e name : Bytes, i ≠ k ∧ dirtyNames[i]? = some d ∧ dirtyNames[k]? = some e ∧
    firstCandidate opts dirtyNames e = firstCandidate opts dirtyNames d ∧
    out[k]? = some (firstCandidate opts dirtyNames d) ∧ out[i]? = some name ∧
    name ≠ firstCandidate opts dirtyNames d ∧ Replacement opts d name

/-- The state of the naming loop after the keys at `done`. -/
structure NamesAssigned (opts : NameOptions) (dirtyNames : List Bytes) (done : List Nat)
    (s : List Bytes × List Bytes) : Prop where
  length : s.1.length = dirtyNames.length
  used : ∀ x, x ∈ s.2 ↔ ∃ i ∈ done, s.1[i]? = some x
  outcome :
    (∀ i ∈ done, ∀ d, dirtyNames[i]? = some d → s.1[i]? = some (firstCandidate opts dirtyNames d) ∧
      ∀ k ∈ done, ∀ e, dirtyNames[k]? = some e →
        firstCandidate opts dirtyNames e = firstCandidate opts dirtyNames d → k = i) ∨
    ∃ i ∈ done, ∃ k ∈ done, DisplacedBy opts dirtyNames s.1 i k

/-- One more key: it gets its first candidate, or the key that has it is named. -/
theorem NamesAssigned.step {done : List Nat} {s : List Bytes × List Bytes} {index : Nat}
    (h : NamesAssigned opts dirtyNames done s) (hlt : index < dirtyNames.length)
    (hdone : ∀ i ∈ done, i < dirtyNames.length) (hnew : index ∉ done) :
    NamesAssigned opts dirtyNames (done ++ [index]) (assignName opts dirtyNames s index) := by
  obtain ⟨dirty, hdirty⟩ : ∃ d, dirtyNames[index]? = some d := ⟨_, getElem?_eq_getElem hlt⟩
  have hgetD : dirtyNames.getD index [] = dirty := by simp [getD, hdirty]
  have hself : ∀ name, (s.1.set index name)[index]? = some name := fun name =>
    getElem?_set_self (by rw [h.length]; exact hlt)
  have hother : ∀ name i, i ≠ index → (s.1.set index name)[i]? = s.1[i]? := fun name i hi =>
    getElem?_set_ne (Ne.symm hi)
  have hkeep : ∀ {i}, i ∈ done → i ≠ index := fun hi e => hnew (e ▸ hi)
  simp only [assignName, hgetD]
  refine ⟨by simp [h.length], ?_, ?_⟩
  · intro x
    constructor
    · intro hx
      rcases mem_cons.mp hx with rfl | hx
      · exact ⟨index, by simp, hself _⟩
      · obtain ⟨i, hi, hget⟩ := (h.used x).mp hx
        exact ⟨i, mem_append_left _ hi, by rw [hother _ i (hkeep hi)]; exact hget⟩
    · rintro ⟨i, hi, hget⟩
      rcases mem_append.mp hi with hi | hi
      · rw [hother _ i (hkeep hi)] at hget
        exact mem_cons_of_mem _ ((h.used x).mpr ⟨i, hi, hget⟩)
      · rw [mem_singleton.mp hi, hself] at hget
        cases hget
        exact mem_cons_self
  · rcases h.outcome with hfirst | ⟨i, hi, k, hk, hdis⟩
    · by_cases hused : firstCandidate opts dirtyNames dirty ∈ s.2
      · -- the candidate is taken, by a key that asked for it
        right
        obtain ⟨k, hk, hget⟩ := (h.used _).mp hused
        obtain ⟨e, he⟩ : ∃ e, dirtyNames[k]? = some e := ⟨_, getElem?_eq_getElem (hdone k hk)⟩
        have hsame : firstCandidate opts dirtyNames e = firstCandidate opts dirtyNames dirty :=
          Option.some.inj ((hfirst k hk e he).1.symm.trans hget)
        refine ⟨index, by simp, k, mem_append_left _ hk, dirty, e, _, (hkeep hk).symm, hdirty, he,
          hsame, ?_, hself _, ?_, chooseName_of_used hused⟩
        · rw [hother _ k (hkeep hk)]
          exact hget
        · intro heq
          exact chooseName_unused (heq ▸ hused)
      · left
        rw [chooseName_of_unused hused]
        have hfresh : ∀ k ∈ done, ∀ e, dirtyNames[k]? = some e →
            firstCandidate opts dirtyNames e ≠ firstCandidate opts dirtyNames dirty := by
          intro k hk e he hsame
          exact hused ((h.used _).mpr ⟨k, hk, hsame ▸ (hfirst k hk e he).1⟩)
        intro i hi d hd
        rcases mem_append.mp hi with hi | hi
        · refine ⟨by rw [hother _ i (hkeep hi)]; exact (hfirst i hi d hd).1, ?_⟩
          intro k hk e he hsame
          rcases mem_append.mp hk with hk | hk
          · exact (hfirst i hi d hd).2 k hk e he hsame
          · rw [mem_singleton.mp hk, hdirty] at he
            cases he
            exact absurd hsame.symm (hfresh i hi d hd)
        · rw [mem_singleton.mp hi] at hd ⊢
          obtain rfl : dirty = d := Option.some.inj (hdirty.symm.trans hd)
          refine ⟨hself _, fun k hk e he hsame => ?_⟩
          rcases mem_append.mp hk with hk | hk
          · exact absurd hsame (hfresh k hk e he)
          · exact mem_singleton.mp hk
    · right
      obtain ⟨d, e, name, hne, hd, he, hsame, hout, hname, hdiff, hrep⟩ := hdis
      refine ⟨i, mem_append_left _ hi, k, mem_append_left _ hk, d, e, name, hne, hd, he,
        hsame, ?_, ?_, hdiff, hrep⟩
      · rw [hother _ k (hkeep hk)]
        exact hout
      · rw [hother _ i (hkeep hi)]
        exact hname

theorem namesAssigned_run (order : List Nat) (hlt : ∀ i ∈ order, i < dirtyNames.length)
    (hnodup : order.Nodup) :
    NamesAssigned opts dirtyNames order (order.foldl (assignName opts dirtyNames)
      (replicate dirtyNames.length [], [])) := by
  induction order using reverseRecOn with
  | nil => exact ⟨by simp, by simp, .inl (by simp)⟩
  | append_singleton order index ih =>
    have hsplit := nodup_append.mp hnodup
    have hprev : ∀ i ∈ order, i < dirtyNames.length := fun i hi => hlt i (mem_append_left _ hi)
    rw [foldl_append]
    exact (ih hprev hsplit.1).step (hlt index (by simp)) hprev
      fun hmem => hsplit.2.2 index hmem index (by simp) rfl

theorem length_foldl_assignName (order : List Nat) : ∀ s : List Bytes × List Bytes,
    (order.foldl (assignName opts dirtyNames) s).1.length = s.1.length := by
  induction order with
  | nil => exact fun _ => rfl
  | cons index order ih =>
    intro s
    rw [foldl_cons, ih]
    exact length_set

theorem length_cleanSiblingFieldNames :
    (cleanSiblingFieldNames opts dirtyNames).length = dirtyNames.length := by
  rw [cleanSiblingFieldNames]
  dsimp only
  split_ifs
  · rfl
  · exact length_map _
  · rw [length_foldl_assignName, length_replicate]

theorem length_map_dedup_eq {bases : List Bytes} (h : bases.dedup.length = bases.length) :
    bases.Nodup := by
  rw [← dedup_eq_self]
  exact (dedup_sublist bases).eq_of_length h

/-- **Names of siblings**: every key gets its first candidate, and these are
pairwise different, or some key lost its first candidate to another key. -/
theorem cleanSiblingFieldNames_cases (hp : opts.fieldNamePolicy ≠ .preserve) :
    (cleanSiblingFieldNames opts dirtyNames = dirtyNames.map (firstCandidate opts dirtyNames) ∧
      (dirtyNames.map (firstCandidate opts dirtyNames)).Nodup) ∨
    ∃ i k, DisplacedBy opts dirtyNames (cleanSiblingFieldNames opts dirtyNames) i k := by
  rw [cleanSiblingFieldNames, if_neg hp]
  dsimp only
  split_ifs with hdistinct
  · left
    have hnodup : (dirtyNames.map (cleanFieldNameBase opts)).Nodup :=
      length_map_dedup_eq (by simpa using hdistinct)
    have hfirst : dirtyNames.map (firstCandidate opts dirtyNames) =
        dirtyNames.map (cleanFieldNameBase opts) := by
      apply map_congr_left
      intro d _
      have hcount := nodup_iff_count_le_one.mp hnodup (cleanFieldNameBase opts d)
      exact if_neg (by omega)
    rw [hfirst]
    exact ⟨rfl, hnodup⟩
  · have hperm : (namingOrder dirtyNames).Perm (range dirtyNames.length) :=
      perm_insertionSort _ _
    have hrun := @namesAssigned_run opts dirtyNames (namingOrder dirtyNames)
      (fun i hi => mem_range.mp (hperm.mem_iff.mp hi)) (hperm.nodup_iff.mpr nodup_range)
    have hall : ∀ i, i < dirtyNames.length → i ∈ namingOrder dirtyNames := fun i hi =>
      hperm.mem_iff.mpr (mem_range.mpr hi)
    set out := ((namingOrder dirtyNames).foldl (assignName opts dirtyNames)
      (replicate dirtyNames.length [], [])).1 with hout
    rcases hrun.outcome with hfirst | ⟨i, -, k, -, hdis⟩
    · left
      refine ⟨?_, ?_⟩
      · apply ext_getElem?
        intro i
        by_cases hi : i < dirtyNames.length
        · obtain ⟨d, hd⟩ : ∃ d, dirtyNames[i]? = some d := ⟨_, getElem?_eq_getElem hi⟩
          rw [(hfirst i (hall i hi) d hd).1, getElem?_map, hd]
          rfl
        · have hlen : out.length = dirtyNames.length := hrun.length
          rw [getElem?_eq_none (by omega), getElem?_eq_none (by simp; omega)]
      · rw [nodup_iff_getElem?_ne_getElem?]
        intro i j hij hj heq
        rw [length_map] at hj
        rw [getElem?_map, getElem?_map, getElem?_eq_getElem hj,
          getElem?_eq_getElem (hij.trans hj)] at heq
        have hk := (hfirst j (hall j hj) _ (getElem?_eq_getElem hj)).2 i
          (hall i (hij.trans hj)) _ (getElem?_eq_getElem _) (Option.some.inj heq)
        omega
    · exact .inr ⟨i, k, hdis⟩

end Siblings

end SchemaSanitizer
