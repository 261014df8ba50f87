/-
SchemaSanitizer/Bytes.lean

Byte strings.  Every name, path and document of the engine is a
`std::string`: a sequence of bytes, compared byte by byte.  `Bytes` is that
sequence as a list, with the few library operations the engine relies on:

* `rfind`: the last occurrence of a pattern (`std::string_view::rfind`);
* `decimal`: the decimal digits of a number (`std::to_chars`);
* `fromChars`: the longest decimal number a text starts with
  (`std::from_chars`), refused when it leaves the range of the target type.

The order `≤` on `Bytes` is the lexicographic order of `UInt8`, which is how
`std::string_view` compares.
-/
import Mathlib

namespace SchemaSanitizer

open List

/-- A `std::string`, as the list of its bytes. -/
abbrev Bytes := List UInt8

/-- The byte of an ASCII character. -/
def byte (c : Char) : UInt8 := c.toNat.toUInt8

/-- The bytes of an ASCII literal. -/
def bytes (s : String) : Bytes := s.toList.map byte

@[elab_as_elim]
theorem forall_byte {motive : UInt8 → Prop} (h : ∀ n < 256, motive (UInt8.ofNat n)) (c : UInt8) :
    motive c := by
  simpa using h c.toNat c.toNat_lt

theorem append_le_append_left_iff (u : Bytes) {x y : Bytes} : u ++ x ≤ u ++ y ↔ x ≤ y := by
  induction u with
  | nil => rfl
  | cons a u ih =>
    rw [cons_append, cons_append, cons_le_cons_iff]
    simp [ih]

/-! ### Searching -/

/-- `rfind pat s`: the start of the last occurrence of `pat` in `s`. -/
def rfind (pat : Bytes) : Bytes → Option Nat
  | [] => if pat = [] then some 0 else none
  | c :: cs =>
    match rfind pat cs with
    | some i => some (i + 1)
    | none => if pat.isPrefixOf (c :: cs) then some 0 else none

theorem rfind_append {pat s : Bytes} {i : Nat} (h : rfind pat s = some i) :
    ∀ pre : Bytes, rfind pat (pre ++ s) = some (pre.length + i)
  | [] => by simpa using h
  | c :: pre => by
    have ih := rfind_append h pre
    simp only [cons_append, rfind, ih, length_cons]
    exact congrArg some (by omega)

/-- What `rfind` finds stands at the place it returns. -/
theorem rfind_spec {pat : Bytes} : ∀ {s : Bytes} {i : Nat},
    rfind pat s = some i → ∃ post, s = s.take i ++ pat ++ post
  | [], i, h => by
    by_cases hp : pat = []
    · exact ⟨[], by simp [hp]⟩
    · simp [rfind, hp] at h
  | c :: cs, i, h => by
    rcases e : rfind pat cs with - | j
    · simp only [rfind, e, Option.ite_none_right_eq_some] at h
      obtain ⟨hpre, h⟩ := h
      cases h
      obtain ⟨post, hpost⟩ := isPrefixOf_iff_prefix.mp hpre
      exact ⟨post, by simp [hpost]⟩
    · simp only [rfind, e, Option.some.injEq] at h
      obtain ⟨post, hpost⟩ := rfind_spec e
      subst h
      exact ⟨post, by simpa using hpost⟩

theorem rfind_pair_append {a b : UInt8} : ∀ {s t : Bytes},
    rfind [a, b] s = none → rfind [a, b] t = none → t.head? ≠ some b →
    rfind [a, b] (s ++ t) = none
  | [], t, _, ht, _ => by simpa using ht
  | c :: cs, t, hs, ht, hb => by
    rcases e : rfind [a, b] cs with - | j
    · simp only [rfind, e, ite_eq_right_iff, reduceCtorEq, imp_false] at hs
      have ih := rfind_pair_append e ht hb
      simp only [cons_append, rfind, ih, ite_eq_right_iff, reduceCtorEq, imp_false]
      intro hpre
      apply hs
      rcases cs with - | ⟨d, ds⟩
      · rcases t with - | ⟨d, ds⟩
        · simp [isPrefixOf] at hpre
        · simp [isPrefixOf] at hpre hb
          exact absurd hpre.2.symm hb
      · simpa [isPrefixOf] using hpre
    · simp [rfind, e] at hs

theorem rfind_pair_eq_none {a b : UInt8} : ∀ {s : Bytes}, a ∉ s → rfind [a, b] s = none
  | [], _ => by simp [rfind]
  | c :: cs, h => by
    have hc : a ≠ c := fun e => h (by simp [e])
    have ih := rfind_pair_eq_none (b := b) (fun e => h (mem_cons_of_mem c e))
    simp [rfind, ih, isPrefixOf, hc]

/-! ### Decimal numbers -/

/-- Is the byte an ASCII digit? -/
def isDigit (c : UInt8) : Bool := 48 ≤ c && c ≤ 57

/-- The number a digit sequence denotes, most significant digit first. -/
def digitsValue (ds : Bytes) : Nat := ds.foldl (fun v d => 10 * v + (d.toNat - 48)) 0

/-- The decimal digits of a number, as `std::to_chars` writes them. -/
def decimal (n : Nat) : Bytes :=
  if n = 0 then [48] else (Nat.digits 10 n).reverse.map fun d => UInt8.ofNat (48 + d)

theorem decimal_ne_nil (n : Nat) : decimal n ≠ [] := by
  unfold decimal
  split
  · simp
  · rename_i h
    simpa using Nat.digits_ne_nil_iff_ne_zero.mpr h

theorem digitsValue_reverse (ds : Bytes) :
    digitsValue ds.reverse = Nat.ofDigits 10 (ds.map (·.toNat - 48)) := by
  rw [digitsValue, foldl_reverse]
  induction ds with
  | nil => rfl
  | cons d ds ih =>
    rw [foldr_cons, ih, map_cons, Nat.ofDigits_cons]
    omega

theorem digit_ofNat {d : Nat} (h : d < 10) :
    isDigit (UInt8.ofNat (48 + d)) = true ∧ (UInt8.ofNat (48 + d)).toNat - 48 = d := by
  interval_cases d <;> decide

theorem digitBytes_digits (n : Nat) :
    (∀ c ∈ (Nat.digits 10 n).map fun d => UInt8.ofNat (48 + d), isDigit c = true) ∧
      digitsValue ((Nat.digits 10 n).map fun d => UInt8.ofNat (48 + d)).reverse = n := by
  have hlt : ∀ d ∈ Nat.digits 10 n, d < 10 := fun d hd => Nat.digits_lt_base (by norm_num) hd
  constructor
  · intro c hc
    obtain ⟨d, hd, rfl⟩ := mem_map.mp hc
    exact (digit_ofNat (hlt d hd)).1
  · have hback := (map_congr_left fun d hd => (digit_ofNat (hlt d hd)).2).trans (map_id' _)
    rw [digitsValue_reverse, map_map]
    exact (congrArg (Nat.ofDigits 10) hback).trans (Nat.ofDigits_digits 10 n)

theorem decimal_isDigit {n : Nat} {c : UInt8} (hc : c ∈ decimal n) : isDigit c = true := by
  unfold decimal at hc
  split at hc
  · rw [mem_singleton.mp hc]
    decide
  · rw [map_reverse, mem_reverse] at hc
    exact (digitBytes_digits n).1 c hc

theorem digitsValue_decimal (n : Nat) : digitsValue (decimal n) = n := by
  unfold decimal
  split
  · rename_i h
    rw [h]
    decide
  · rw [map_reverse]
    exact (digitBytes_digits n).2

theorem decimal_injective : Function.Injective decimal := by
  intro m n h
  rw [← digitsValue_decimal m, h, digitsValue_decimal]

/-- The range of an `int64_t`. -/
def int64Min : Int := -9223372036854775808

@[inherit_doc int64Min]
def int64Max : Int := 9223372036854775807

/-- `std::from_chars` into an integer type with values `lo .. hi`: an optional
minus sign and the longest run of digits.  The result is the value and the
unread rest; a missing digit or a value out of range is an error. -/
def fromChars (lo hi : Int) (s : Bytes) : Option (Int × Bytes) :=
  let negative := s.head? == some (byte '-')
  let rest := if negative then s.tail else s
  let digits := rest.takeWhile isDigit
  if digits = [] then none
  else
    let value : Int := if negative then -(digitsValue digits : Int) else digitsValue digits
    if lo ≤ value ∧ value ≤ hi then some (value, rest.drop digits.length) else none

theorem fromChars_range {lo hi value : Int} {s rest : Bytes}
    (h : fromChars lo hi s = some (value, rest)) : lo ≤ value ∧ value ≤ hi := by
  simp only [fromChars, Option.ite_none_left_eq_some, Option.ite_none_right_eq_some,
    Option.some.injEq, Prod.mk.injEq] at h
  obtain ⟨_, hrange, rfl, _⟩ := h
  exact hrange

theorem takeWhile_digits {ds rest : Bytes} (hds : ∀ c ∈ ds, isDigit c = true)
    (hrest : ∀ c, rest.head? = some c → isDigit c = false) :
    (ds ++ rest).takeWhile isDigit = ds := by
  rw [takeWhile_append_of_pos hds]
  rcases rest with - | ⟨c, cs⟩
  · simp
  · simp [hrest c rfl]

theorem head?_digits_ne {ds : Bytes} (hds : ∀ c ∈ ds, isDigit c = true) {sign : UInt8}
    (hsign : isDigit sign = false) : ds.head? ≠ some sign := by
  intro hhead
  rw [hds _ (mem_of_head? hhead)] at hsign
  contradiction

theorem fromChars_digits (lo hi : Int) {ds rest : Bytes} (hne : ds ≠ [])
    (hds : ∀ c ∈ ds, isDigit c = true) (hrest : ∀ c, rest.head? = some c → isDigit c = false) :
    fromChars lo hi (ds ++ rest) =
      if lo ≤ digitsValue ds ∧ (digitsValue ds : Int) ≤ hi then some ((digitsValue ds : Int), rest)
      else none := by
  have hminus : (ds ++ rest).head? ≠ some (byte '-') := by
    rw [head?_append_of_ne_nil _ hne]
    exact head?_digits_ne hds (by decide)
  simp only [fromChars, beq_eq_false_iff_ne.mpr hminus, Bool.false_eq_true, if_false,
    takeWhile_digits hds hrest, hne, drop_left]

theorem fromChars_minus (lo hi : Int) {ds : Bytes} (hne : ds ≠ [])
    (hds : ∀ c ∈ ds, isDigit c = true) :
    fromChars lo hi (byte '-' :: ds) =
      if lo ≤ -(digitsValue ds : Int) ∧ -(digitsValue ds : Int) ≤ hi then
        some (-(digitsValue ds : Int), []) else none := by
  have htake : ds.takeWhile isDigit = ds := takeWhile_eq_self_iff.mpr hds
  simp only [fromChars, head?_cons, beq_self_eq_true, if_true, tail_cons, htake, hne, if_false,
    drop_length]

/-- `std::from_chars` reads back what `std::to_chars` wrote, up to the first
byte that is not a digit, unless the number is out of range. -/
theorem fromChars_decimal {lo : Int} (hi : Int) (n : Nat) {rest : Bytes} (hlo : lo ≤ 0)
    (hrest : ∀ c, rest.head? = some c → isDigit c = false) :
    fromChars lo hi (decimal n ++ rest) =
      if (n : Int) ≤ hi then some ((n : Int), rest) else none := by
  have hlow : lo ≤ (n : Int) := by omega
  rw [fromChars_digits lo hi (decimal_ne_nil n) (fun c hc => decimal_isDigit hc) hrest,
    digitsValue_decimal]
  simp only [hlow, true_and]

end SchemaSanitizer
