/-
SchemaSanitizer/NumberText.lean

Integer text (`core/numeric/integer.cpp`).  `parse_int64_strict` looks at the text
twice: once itself, for a sign and digits up to the end, and once through
`std::from_chars`, for the value and its range.  The two do not agree on what a sign
is: `std::from_chars` knows the minus sign only, so a number with a plus sign passes
the first look and is refused by the second.
-/
import SchemaSanitizer.JsonTokens

namespace SchemaSanitizer

open List

/-- What follows an optional sign. -/
def afterSign (s : Bytes) : Bytes :=
  if s.head? = some (byte '+') ∨ s.head? = some (byte '-') then s.tail else s

/-- `parse_int64_strict`. -/
def parseInt64Strict (s : Bytes) : Option Int :=
  -- the text is empty or a sign alone, or a byte is no digit
  if afterSign s = [] ∨ (afterSign s).any (! isDigit ·) then none
  else
    match fromChars int64Min int64Max s with
    | some (value, []) => some value
    | _ => none

/-- An optional sign before decimal digits, and the number it stands for. -/
inductive IntegerText : Bytes → Int → Prop
  | unsigned {ds : Bytes} : Digits ds → IntegerText ds (digitsValue ds)
  | plus {ds : Bytes} : Digits ds → IntegerText (byte '+' :: ds) (digitsValue ds)
  | minus {ds : Bytes} : Digits ds → IntegerText (byte '-' :: ds) (-(digitsValue ds : Int))

/-! ### What is accepted -/

variable {s ds : Bytes} {v : Int}

theorem parseInt64Strict_eq_some : parseInt64Strict s = some v ↔
    Digits (afterSign s) ∧ fromChars int64Min int64Max s = some (v, []) := by
  unfold parseInt64Strict Digits
  rcases fromChars int64Min int64Max s with - | ⟨value, - | ⟨c, rest⟩⟩ <;> simp

theorem afterSign_of_digits (hds : Digits ds) : afterSign ds = ds := by
  have hplus := head?_digits_ne hds.2 (show isDigit (byte '+') = false by decide)
  have hminus := head?_digits_ne hds.2 (show isDigit (byte '-') = false by decide)
  simp [afterSign, hplus, hminus]

/-- Only the range and a plus sign keep an integer text from being read. -/
theorem IntegerText.fromChars_iff {value : Int} (h : IntegerText s value) :
    fromChars int64Min int64Max s = some (v, []) ↔
      v = value ∧ (int64Min ≤ value ∧ value ≤ int64Max) ∧ s.head? ≠ some (byte '+') := by
  cases h with
  | unsigned hds =>
    have hread : fromChars int64Min int64Max (s ++ []) = _ :=
      fromChars_digits _ _ hds.1 hds.2 (by rintro _ ⟨⟩)
    have hplus := head?_digits_ne hds.2 (show isDigit (byte '+') = false by decide)
    rw [append_nil] at hread
    simp [hread, hplus, and_comm, eq_comm]
  | plus hds =>
    simp [fromChars, show (byte '+' == byte '-') = false by decide,
      show isDigit (byte '+') = false by decide]
  | minus hds =>
    have hplus : ¬ byte '-' = byte '+' := by decide
    rw [fromChars_minus _ _ hds.1 hds.2, head?_cons]
    simp [hplus, and_comm, eq_comm (a := v)]

theorem digits_afterSign_iff : Digits (afterSign s) ↔ ∃ value, IntegerText s value := by
  constructor
  · intro hds
    by_cases hsign : s.head? = some (byte '+') ∨ s.head? = some (byte '-')
    · rw [afterSign, if_pos hsign] at hds
      rcases hsign with hsign | hsign <;> rw [eq_cons_of_mem_head? hsign]
      exacts [⟨_, .plus hds⟩, ⟨_, .minus hds⟩]
    · rw [afterSign, if_neg hsign] at hds
      exact ⟨_, .unsigned hds⟩
  · rintro ⟨value, hds | hds | hds⟩
    · rwa [afterSign_of_digits hds]
    all_goals simpa [afterSign] using hds

/-- **Integer text is parsed exactly, but for the plus sign**: a text is accepted with a
value just when it is an optional minus sign before digits, stands for the value, and
the value is in range. -/
theorem parseInt64Strict_iff (s : Bytes) (v : Int) : parseInt64Strict s = some v ↔
    IntegerText s v ∧ (int64Min ≤ v ∧ v ≤ int64Max) ∧ s.head? ≠ some (byte '+') := by
  rw [parseInt64Strict_eq_some, digits_afterSign_iff]
  constructor
  · rintro ⟨⟨value, htext⟩, hread⟩
    obtain ⟨rfl, hrange⟩ := htext.fromChars_iff.mp hread
    exact ⟨htext, hrange⟩
  · rintro ⟨htext, hrange⟩
    exact ⟨⟨v, htext⟩, htext.fromChars_iff.mpr ⟨rfl, hrange⟩⟩

/-- An optional sign before digits that is refused. -/
theorem parseInt64Strict_plus_refused :
    IntegerText (bytes "+5") 5 ∧ (int64Min ≤ 5 ∧ 5 ≤ int64Max) ∧
      parseInt64Strict (bytes "+5") = none := by
  have hfive : Digits (bytes "5") := ⟨by decide, by simp [bytes, byte, isDigit]⟩
  exact ⟨.plus hfive, by decide, rfl⟩

end SchemaSanitizer
