/-
SchemaSanitizer/Lib/Utf8.lean

Well-formed UTF-8, as the syntax of byte sequences: a character is one ASCII byte,
or a lead byte with continuation bytes, where some lead bytes narrow the range
of the second byte.  Nothing here is about schemas.
-/
import Mathlib

namespace SchemaSanitizer.Lib

open List

/-- A continuation byte. -/
def IsContinuation (b : UInt8) : Prop := 0x80 ≤ b ∧ b ≤ 0xBF

/-- **One character.** -/
inductive Utf8Char : List UInt8 → Prop
  | ascii {a : UInt8} (ha : a < 0x80) : Utf8Char [a]
  | two {a b : UInt8} (hlo : 0xC2 ≤ a) (hhi : a ≤ 0xDF) (hb : IsContinuation b) : Utf8Char [a, b]
  | three {a b c : UInt8} (hlo : 0xE0 ≤ a) (hhi : a ≤ 0xEF) (hb : IsContinuation b)
      -- no overlong form, no surrogate
      (hE0 : a = 0xE0 → 0xA0 ≤ b) (hED : a = 0xED → b ≤ 0x9F) (hc : IsContinuation c) :
      Utf8Char [a, b, c]
  | four {a b c d : UInt8} (hlo : 0xF0 ≤ a) (hhi : a ≤ 0xF4) (hb : IsContinuation b)
      -- no overlong form, nothing beyond the last plane
      (hF0 : a = 0xF0 → 0x90 ≤ b) (hF4 : a = 0xF4 → b ≤ 0x8F) (hc : IsContinuation c)
      (hd : IsContinuation d) : Utf8Char [a, b, c, d]

/-- **A valid byte string**: characters one after the other. -/
inductive ValidUtf8 : List UInt8 → Prop
  | nil : ValidUtf8 []
  | cons {c s : List UInt8} (hc : Utf8Char c) (hs : ValidUtf8 s) : ValidUtf8 (c ++ s)

theorem validUtf8_of_ascii : ∀ {s : List UInt8}, (∀ c ∈ s, c < 0x80) → ValidUtf8 s
  | [], _ => .nil
  | a :: s, h => by
    have hrest := validUtf8_of_ascii fun c hc => h c (mem_cons_of_mem a hc)
    exact .cons (.ascii (h a mem_cons_self)) hrest

theorem validUtf8_bytes {s : List UInt8} (h : s.all (· < 0x80) = true) : ValidUtf8 s :=
  validUtf8_of_ascii fun c hc => by simpa using all_eq_true.mp h c hc

theorem ValidUtf8.append {s t : List UInt8} (hs : ValidUtf8 s) (ht : ValidUtf8 t) :
    ValidUtf8 (s ++ t) := by
  induction hs with
  | nil => exact ht
  | cons hc _ ih =>
    rw [append_assoc]
    exact .cons hc ih

/-- The bytes of a longer character are not ASCII. -/
theorem Utf8Char.ascii_or {c : List UInt8} (h : Utf8Char c) :
    (∃ a, c = [a] ∧ a < 0x80) ∨ ∀ b ∈ c, 0x80 ≤ b := by
  cases h with
  | ascii ha => exact .inl ⟨_, rfl, ha⟩
  | two hlo _ hb =>
    right
    rw [forall_mem_cons, forall_mem_singleton]
    exact ⟨UInt8.le_trans (by decide : (0x80 : UInt8) ≤ 0xC2) hlo, hb.1⟩
  | three hlo _ hb _ _ hc =>
    right
    rw [forall_mem_cons, forall_mem_cons, forall_mem_singleton]
    exact ⟨UInt8.le_trans (by decide : (0x80 : UInt8) ≤ 0xE0) hlo, hb.1, hc.1⟩
  | four hlo _ hb _ _ hc hd =>
    right
    rw [forall_mem_cons, forall_mem_cons, forall_mem_cons, forall_mem_singleton]
    exact ⟨UInt8.le_trans (by decide : (0x80 : UInt8) ≤ 0xF0) hlo, hb.1, hc.1, hd.1⟩

/-- A valid string stays valid if ASCII bytes are replaced by ASCII texts. -/
theorem ValidUtf8.flatMap {s : List UInt8} (h : ValidUtf8 s) {f : UInt8 → List UInt8}
    (hascii : ∀ a, a < 0x80 → ∀ b ∈ f a, b < 0x80) (hother : ∀ a, 0x80 ≤ a → f a = [a]) :
    ValidUtf8 (s.flatMap f) := by
  induction h with
  | nil => exact .nil
  | cons hc _ ih =>
    rw [flatMap_append]
    rcases hc.ascii_or with ⟨a, rfl, ha⟩ | hlong
    · have hf : ValidUtf8 (f a) := validUtf8_of_ascii (hascii a ha)
      simpa using hf.append ih
    · rw [flatMap_congr fun b hb => hother b (hlong b hb)]
      simpa using ValidUtf8.cons hc ih

/-- What stands before an ASCII byte of a valid string is valid. -/
theorem ValidUtf8.before {s t : List UInt8} {a : UInt8} (ha : a < 0x80)
    (h : ValidUtf8 (s ++ a :: t)) : ValidUtf8 s := by
  generalize hst : s ++ a :: t = text at h
  induction h generalizing s with
  | nil => cases s <;> cases hst
  | @cons c rest hc _ ih =>
    rcases append_eq_append_iff.mp hst with ⟨u, rfl, hu⟩ | ⟨u, rfl, hu⟩
    · -- the character starts inside `s` or at the byte, and so is that byte
      cases u with
      | nil =>
        rw [append_nil] at hc
        simpa using ValidUtf8.cons hc .nil
      | cons b u =>
        obtain ⟨rfl, -⟩ := cons.inj hu
        rcases hc.ascii_or with ⟨d, hd, -⟩ | hhigh
        · cases s with
          | nil => exact .nil
          | cons => simp at hd
        · exact absurd (hhigh a (by simp)) (UInt8.not_le.mpr ha)
    · exact .cons hc (ih hu.symm)

theorem ValidUtf8.intercalate {sep : List UInt8} (hsep : ValidUtf8 sep) :
    ∀ {texts : List (List UInt8)}, (∀ t ∈ texts, ValidUtf8 t) → ValidUtf8 (sep.intercalate texts)
  | [], _ => .nil
  | [t], h => by simpa using h
  | t :: u :: texts, h => by
    rw [forall_mem_cons] at h
    rw [intercalate_cons_cons]
    exact (h.1.append hsep).append (hsep.intercalate h.2)

end SchemaSanitizer.Lib
