/-
SchemaSanitizer/Timestamp.lean

ISO timestamps (`core/temporal/timestamp.cpp`, `time.cpp`, `date.cpp`): the parser
goes over the text once, and what it has not read yet is the rest of the text here.

`IsoTimestamp` is a timestamp of the accepted form, with the text and the instant
it stands for.  The parser computes the instant exactly, but its check of the
lower end of the range asks for whole seconds: `kMinSeconds` is the quotient
truncated towards zero, so the instants below it that still fit are refused.
-/
import SchemaSanitizer.Calendar

namespace SchemaSanitizer

open List

/-! ### The parser -/

/-- `parse_2d`. -/
def parse2d (s : Bytes) (pos : Nat) : Option Nat :=
  match s.drop pos with
  | a :: b :: _ => if isDigit a && isDigit b then some (digitsValue [a, b]) else none
  | _ => none

/-- `parse_4d`. -/
def parse4d (s : Bytes) (pos : Nat) : Option Nat :=
  match s.drop pos with
  | a :: b :: c :: d :: _ =>
    if isDigit a && isDigit b && isDigit c && isDigit d then
      some (digitsValue [a, b, c, d]) else none
  | _ => none

/-- `parse_iso_date_to_days`; its checks are those of `ymd_to_days`. -/
def parseIsoDateToDays (s : Bytes) : Option Int :=
  if s.length ≠ 10 ∨ s[4]? ≠ some (byte '-') ∨ s[7]? ≠ some (byte '-') then none
  else do
    let year ← parse4d s 0
    let month ← parse2d s 5
    let day ← parse2d s 8
    ymdToDays year month day

/-- `parse_iso_time_to_seconds`. -/
def parseIsoTimeToSeconds (s : Bytes) : Option Nat :=
  if s.length ≠ 8 ∨ s[2]? ≠ some (byte ':') ∨ s[5]? ≠ some (byte ':') then none
  else do
    let hours ← parse2d s 0
    let minutes ← parse2d s 3
    let seconds ← parse2d s 6
    if 23 < hours ∨ 59 < minutes ∨ 59 < seconds then none
    else some (hours * 3600 + minutes * 60 + seconds)

/-- The loop of `parse_fractional_nanoseconds`: the number of digits taken, their value, and
what follows them. -/
def fractionLoop : Bytes → (digits value : Nat) → Nat × Nat × Bytes
  | [], digits, value => (digits, value, [])
  | c :: s, digits, value =>
    if isDigit c then
      if digits < 9 then fractionLoop s (digits + 1) (value * 10 + (c.toNat - 48))
      else fractionLoop s digits value
    else (digits, value, c :: s)

/-- `parse_fractional_nanoseconds`: the fraction and what follows it. -/
def parseFractionalNanoseconds : Bytes → Option (Nat × Bytes)
  | [] => some (0, [])
  | c :: s =>
    if c ≠ byte '.' then some (0, c :: s)
    else
      let (digits, value, rest) := fractionLoop s 0 0
      if digits = 0 then none else some (value * 10 ^ (9 - digits), rest)

/-- `parse_timezone_offset`: the offset in seconds and what follows it. -/
def parseTimezoneOffset : Bytes → Option (Int × Bytes)
  | [] => some (0, [])
  | c :: s =>
    if c = byte 'Z' then some (0, s)
    else if c ≠ byte '+' ∧ c ≠ byte '-' then some (0, c :: s)
    else if s.length < 5 then none
    else do
      let hours ← parse2d s 0
      let minutes ← parse2d s 3
      if s[2]? ≠ some (byte ':') ∨ 23 < hours ∨ 59 < minutes then none
      else some ((if c = byte '+' then 1 else -1) * (hours * 3600 + minutes * 60 : Nat), s.drop 5)

/-- `combine_timestamp_nanoseconds`. -/
def combineTimestampNanoseconds (days seconds fractionNs timezoneOffsetSeconds : Int) :
    Option Int :=
  let totalSeconds := days * 86400 + seconds - timezoneOffsetSeconds
  let maxSeconds := (2 ^ 63 - 1 : Int).tdiv 1000000000
  let maxRemainder := (2 ^ 63 - 1 : Int).tmod 1000000000
  let minSeconds := (-2 ^ 63 : Int).tdiv 1000000000
  if maxSeconds < totalSeconds ∨ (totalSeconds = maxSeconds ∧ maxRemainder < fractionNs) ∨
      totalSeconds < minSeconds then none
  else some (totalSeconds * 1000000000 + fractionNs)

/-- `parse_iso_timestamp_to_ns`. -/
def parseIsoTimestampToNs (s : Bytes) : Option Int :=
  if s.length < 19 ∨ (s[10]? ≠ some (byte 'T') ∧ s[10]? ≠ some (byte ' ')) then none
  else do
    let days ← parseIsoDateToDays (s.take 10)
    let seconds ← parseIsoTimeToSeconds ((s.drop 11).take 8)
    let (fractionNs, rest) ← parseFractionalNanoseconds (s.drop 19)
    let (timezoneOffsetSeconds, rest) ← parseTimezoneOffset rest
    if rest ≠ [] then none
    else combineTimestampNanoseconds days seconds fractionNs timezoneOffsetSeconds

/-! ### Timestamps -/

/-- The text of a number of two digits. -/
def two (n : Nat) : Bytes := [UInt8.ofNat (48 + n / 10), UInt8.ofNat (48 + n % 10)]

/-- The zone of a timestamp: none, `Z`, or a signed offset. -/
inductive IsoZone
  | none
  | utc
  | offset (east : Bool) (hours : Fin 24) (minutes : Fin 60)

/-- The text of a zone. -/
def IsoZone.text : IsoZone → Bytes
  | .none => []
  | .utc => [byte 'Z']
  | .offset east hours minutes =>
    byte (if east then '+' else '-') :: (two hours ++ byte ':' :: two minutes)

/-- The seconds that the zone is ahead. -/
def IsoZone.seconds : IsoZone → Int
  | .offset east hours minutes => (if east then 1 else -1) * (hours * 3600 + minutes * 60 : Nat)
  | _ => 0

/-- A timestamp of the ISO form; the fraction is the list of its digits, empty if there is none. -/
structure IsoTimestamp where
  year : Fin 10000
  month : Fin 100
  day : Fin 100
  date : ValidDate (year : Nat) month day
  spaced : Bool
  hours : Fin 24
  minutes : Fin 60
  seconds : Fin 60
  fraction : Bytes
  digits : ∀ c ∈ fraction, isDigit c
  zone : IsoZone

namespace IsoTimestamp

variable (t : IsoTimestamp)

/-- The text of the date. -/
def dateText : Bytes :=
  two (t.year / 100) ++ two (t.year % 100) ++ byte '-' :: (two t.month ++ byte '-' :: two t.day)

/-- The text of the time of the day. -/
def timeText : Bytes := two t.hours ++ byte ':' :: (two t.minutes ++ byte ':' :: two t.seconds)

/-- The text of a timestamp. -/
def text : Bytes :=
  t.dateText ++ byte (if t.spaced then ' ' else 'T') :: (t.timeText ++
    ((if t.fraction = [] then [] else byte '.' :: t.fraction) ++ t.zone.text))

/-- The fraction in nanoseconds, truncated to nine digits. -/
def fractionNs : Nat :=
  digitsValue (t.fraction.take 9) * 10 ^ (9 - (t.fraction.take 9).length)

/-- The day number of the date. -/
def days : Int := daysFromCivilEpoch (t.year : Nat) t.month t.day

/-- The second of the day. -/
def daySeconds : Nat := t.hours * 3600 + t.minutes * 60 + t.seconds

/-- The nanoseconds from the epoch to the instant. -/
def instant : Int :=
  (t.days * 86400 + t.daySeconds - t.zone.seconds) * 1000000000 + t.fractionNs

end IsoTimestamp

/-! ### What the parser reads -/

theorem parse2d_two {s r : Bytes} {p n : Nat} (hn : n < 100) (h : s.drop p = two n ++ r) :
    parse2d s p = some n := by
  obtain ⟨hd, hv⟩ := digit_ofNat (d := n / 10) (by omega)
  obtain ⟨hd', hv'⟩ := digit_ofNat (d := n % 10) (by omega)
  simp only [parse2d, h, two, cons_append, nil_append, hd, hd', digitsValue, foldl_cons, foldl_nil,
    hv, hv', Bool.and_self, if_true, Option.some.injEq]
  omega

theorem parse4d_two {s r : Bytes} {p m n : Nat} (hm : m < 100) (hn : n < 100)
    (h : s.drop p = two m ++ two n ++ r) : parse4d s p = some (100 * m + n) := by
  obtain ⟨hd, hv⟩ := digit_ofNat (d := m / 10) (by omega)
  obtain ⟨hd', hv'⟩ := digit_ofNat (d := m % 10) (by omega)
  obtain ⟨he, hw⟩ := digit_ofNat (d := n / 10) (by omega)
  obtain ⟨he', hw'⟩ := digit_ofNat (d := n % 10) (by omega)
  simp only [parse4d, h, two, cons_append, nil_append, hd, hd', he, he', digitsValue, foldl_cons,
    foldl_nil, hv, hv', hw, hw', Bool.and_self, if_true, Option.some.injEq]
  omega

/-- Nine digits of a fraction count, the others are passed. -/
theorem fractionLoop_eq {rest : Bytes} (hrest : ∀ c ∈ rest.head?, isDigit c = false) :
    ∀ {ds : Bytes} (digits value : Nat), (∀ c ∈ ds, isDigit c) → digits ≤ 9 →
    fractionLoop (ds ++ rest) digits value = (digits + (ds.take (9 - digits)).length,
      (ds.take (9 - digits)).foldl (fun v d => 10 * v + (d.toNat - 48)) value, rest)
  | [], digits, value, _, _ => by
    rcases rest with - | ⟨c, rest⟩
    · simp [fractionLoop]
    · simp [fractionLoop, hrest c rfl]
  | c :: ds, digits, value, hds, hle => by
    have hc := hds c mem_cons_self
    have hds' := fun x hx => hds x (mem_cons_of_mem c hx)
    simp only [cons_append, fractionLoop, hc, if_true]
    split
    · obtain ⟨k, hk⟩ : ∃ k, 9 - digits = k + 1 := ⟨8 - digits, by omega⟩
      rw [fractionLoop_eq hrest _ _ hds' (by omega), hk, show 9 - (digits + 1) = k by omega,
        take_succ_cons, length_cons, foldl_cons, Nat.mul_comm 10]
      simp only [Prod.mk.injEq, and_true]
      omega
    · rw [fractionLoop_eq hrest _ _ hds' hle, show 9 - digits = 0 by omega]
      simp

theorem IsoZone.head_text (z : IsoZone) : ∀ c ∈ z.text.head?, isDigit c = false ∧ c ≠ byte '.' := by
  rcases z with - | - | ⟨- | -, hours, minutes⟩ <;> simp [IsoZone.text] <;> decide

theorem parseTimezoneOffset_text (z : IsoZone) :
    parseTimezoneOffset z.text = some (z.seconds, []) := by
  rcases z with - | - | ⟨east, hours, minutes⟩
  · rfl
  · rfl
  · have hhours := parse2d_two (s := two hours ++ byte ':' :: two minutes) (p := 0)
      (n := hours) (r := byte ':' :: two minutes) (by omega) rfl
    have hminutes := parse2d_two (s := two hours ++ byte ':' :: two minutes) (p := 3)
      (n := minutes) (r := []) (by omega) (by simp [two])
    have hcheck : ¬ ((two hours ++ byte ':' :: two minutes)[2]? ≠ some (byte ':') ∨
        23 < hours.val ∨ 59 < minutes.val) := by
      simp [two]
      omega
    rw [IsoZone.text, parseTimezoneOffset]
    cases east <;> simp only [hhours, hminutes, IsoZone.seconds]
    · exact if_neg hcheck
    · exact if_neg hcheck

namespace IsoTimestamp

variable (t : IsoTimestamp)

theorem parseFraction : parseFractionalNanoseconds
    ((if t.fraction = [] then [] else byte '.' :: t.fraction) ++ t.zone.text) =
      some (t.fractionNs, t.zone.text) := by
  have hzone := t.zone.head_text
  by_cases h : t.fraction = []
  · rw [fractionNs, h, if_pos rfl, nil_append]
    generalize t.zone.text = rest at hzone ⊢
    rcases rest with - | ⟨c, rest⟩
    · rfl
    · exact if_pos (hzone c rfl).2
  · have hloop := fractionLoop_eq (fun c hc => (hzone c hc).1) 0 0 t.digits (by decide)
    rw [if_neg h, cons_append, parseFractionalNanoseconds, if_neg (by simp)]
    simp only [hloop, Nat.zero_add, Nat.sub_zero]
    rw [if_neg (by simpa using h)]
    rfl

theorem parseDate : parseIsoDateToDays t.dateText = some t.days := by
  have hyear := parse4d_two (s := t.dateText) (p := 0) (m := t.year / 100) (n := t.year % 100)
    (by omega) (by omega) rfl
  have hmonth := parse2d_two (s := t.dateText) (p := 5) t.month.isLt rfl
  have hday := parse2d_two (s := t.dateText) (p := 8) (r := []) t.day.isLt rfl
  have hvalid : ¬ (daysInMonth (t.year : Nat) t.month = 0 ∨ (t.day : Int) < 1 ∨
      daysInMonth (t.year : Nat) t.month < t.day) := by
    have := t.date.month
    have := t.date.pos
    have := t.date.le
    omega
  have hrange := daysFromCivilEpoch_eq (t.year : Nat) t.month t.day
  obtain ⟨-, -, -, hdoy, -⟩ := t.date.readBack
  simp only [marchYear] at hrange
  rw [parseIsoDateToDays, if_neg (by simp [dateText, two])]
  simp only [hyear, hmonth, hday, Nat.div_add_mod, Option.bind_eq_bind, Option.bind_some, ymdToDays,
    hvalid, if_false, Int.toNat_natCast]
  exact if_neg (by omega)

theorem parseTime : parseIsoTimeToSeconds t.timeText = some t.daySeconds := by
  have hhours := parse2d_two (s := t.timeText) (p := 0) (n := t.hours) (by omega) rfl
  have hminutes := parse2d_two (s := t.timeText) (p := 3) (n := t.minutes) (by omega) rfl
  have hseconds := parse2d_two (s := t.timeText) (p := 6) (n := t.seconds) (r := []) (by omega)
    rfl
  rw [parseIsoTimeToSeconds, if_neg (by simp [timeText, two])]
  simp only [hhours, hminutes, hseconds]
  exact if_neg (by omega)

theorem text_pieces {d m r : Bytes} (c : UInt8) (hd : d.length = 10) (hm : m.length = 8) :
    19 ≤ (d ++ c :: (m ++ r)).length ∧ (d ++ c :: (m ++ r)).take 10 = d ∧
      (d ++ c :: (m ++ r))[10]? = some c ∧ ((d ++ c :: (m ++ r)).drop 11).take 8 = m ∧
      (d ++ c :: (m ++ r)).drop 19 = r := by
  have h11 : d ++ c :: (m ++ r) = (d ++ [c]) ++ (m ++ r) := by simp
  have h19 : d ++ c :: (m ++ r) = (d ++ [c] ++ m) ++ r := by simp
  refine ⟨by simp [hd, hm]; omega, take_left' hd, by simp [← hd], ?_, ?_⟩
  · rw [h11, drop_left' (by simp [hd]), take_left' hm]
  · rw [h19, drop_left' (by simp [hd, hm])]

theorem parse_text : parseIsoTimestampToNs t.text =
    combineTimestampNanoseconds t.days t.daySeconds t.fractionNs t.zone.seconds := by
  obtain ⟨hlen, hdate, hsep, htime, hrest⟩ := text_pieces
    (r := (if t.fraction = [] then [] else byte '.' :: t.fraction) ++ t.zone.text)
    (byte (if t.spaced then ' ' else 'T')) (show t.dateText.length = 10 by simp [dateText, two])
    (show t.timeText.length = 8 by simp [timeText, two])
  rw [← text] at hlen hdate hsep htime hrest
  have hform : ¬ (t.text.length < 19 ∨
      (t.text[10]? ≠ some (byte 'T') ∧ t.text[10]? ≠ some (byte ' '))) := by
    rw [hsep]
    cases t.spaced <;> simp [hlen]
  simp only [parseIsoTimestampToNs, hform, if_false, hdate, htime, hrest, parseDate, parseTime,
    parseFraction, parseTimezoneOffset_text, Option.bind_eq_bind, Option.bind_some, ne_eq,
    not_true_eq_false]

theorem foldl_digits_lt : ∀ {l : Bytes} (v : Nat), (∀ c ∈ l, isDigit c) →
    l.foldl (fun v d => 10 * v + (d.toNat - 48)) v < (v + 1) * 10 ^ l.length
  | [], v, _ => by simp
  | c :: ds, v, h => by
    have hc : c.toNat - 48 ≤ 9 := by
      have := h c mem_cons_self
      simp only [isDigit, Bool.and_eq_true, decide_eq_true_eq, UInt8.le_iff_toNat_le] at this
      have h57 : (57 : UInt8).toNat = 57 := rfl
      omega
    have ih := foldl_digits_lt (10 * v + (c.toNat - 48)) fun x hx => h x (mem_cons_of_mem c hx)
    calc (c :: ds).foldl _ v < (10 * v + (c.toNat - 48) + 1) * 10 ^ ds.length := ih
      _ ≤ (10 * (v + 1)) * 10 ^ ds.length := Nat.mul_le_mul_right _ (by omega)
      _ = (v + 1) * 10 ^ (c :: ds).length := by rw [length_cons, pow_succ]; ring

theorem fractionNs_lt : t.fractionNs < 1000000000 := by
  have hlt := foldl_digits_lt (l := t.fraction.take 9) 0 fun c hc => t.digits c (mem_of_mem_take hc)
  have hlen : (t.fraction.take 9).length ≤ 9 := length_take_le ..
  rw [Nat.zero_add, Nat.one_mul] at hlt
  calc t.fractionNs < 10 ^ (t.fraction.take 9).length * 10 ^ (9 - (t.fraction.take 9).length) :=
        Nat.mul_lt_mul_of_pos_right hlt (by positivity)
    _ = 1000000000 := by rw [← pow_add, Nat.add_sub_cancel' hlen]; norm_num

end IsoTimestamp

theorem combineTimestampNanoseconds_eq (days seconds offset : Int) {fraction : Nat}
    (h : fraction < 1000000000) :
    combineTimestampNanoseconds days seconds fraction offset =
      let instant := (days * 86400 + seconds - offset) * 1000000000 + fraction
      if -9223372036000000000 ≤ instant ∧ instant ≤ 2 ^ 63 - 1 then some instant else none := by
  have hmax : (2 ^ 63 - 1 : Int).tdiv 1000000000 = 9223372036 := by decide
  have hrem : (2 ^ 63 - 1 : Int).tmod 1000000000 = 854775807 := by decide
  have hmin : (-2 ^ 63 : Int).tdiv 1000000000 = -9223372036 := by decide
  simp only [combineTimestampNanoseconds, hmax, hrem, hmin]
  generalize days * 86400 + seconds - offset = total
  split_ifs <;> first | rfl | omega

/-- **The parser is exact down to `kMinSeconds`**: it gives the instant if that many whole
seconds do not pass it and it fits, and refuses it otherwise. -/
theorem parseIsoTimestampToNs_eq (t : IsoTimestamp) :
    parseIsoTimestampToNs t.text =
      if -9223372036000000000 ≤ t.instant ∧ t.instant ≤
      2 ^ 63 - 1 then some t.instant else none := by
  rw [t.parse_text, combineTimestampNanoseconds_eq _ _ _ t.fractionNs_lt]
  rfl

/-- The first instant that fits, 1677-09-21T00:12:43.145224192Z. -/
def firstInstant : IsoTimestamp where
  year := 1677
  month := 9
  day := 21
  date := ⟨by decide, by decide, by decide⟩
  spaced := false
  hours := 0
  minutes := 12
  seconds := 43
  fraction := [49, 52, 53, 50, 50, 52, 49, 57, 50]
  digits := by decide +kernel
  zone := .utc

/-- The smallest `int64_t` is refused. -/
theorem parse_firstInstant_refused :
    firstInstant.text = bytes "1677-09-21T00:12:43.145224192Z" ∧ firstInstant.instant = -2 ^ 63 ∧
      parseIsoTimestampToNs firstInstant.text = none :=
  ⟨by decide +kernel, by decide +kernel, by decide +kernel⟩

end SchemaSanitizer
