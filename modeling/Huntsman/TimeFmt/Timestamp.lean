import Huntsman.TimeFmt.Digits

/-!
# Timestamps

`parseTimestampAndIso` reads a number of seconds or of milliseconds, a year, a date, or a date and a
time with an offset, and answers the instant and its canonical text.

What a text is, is said by `IsDateText`, `IsClock`, `IsOffset` and `IsTime`, and each part of the
source is shown to read just those.  What is printed is a text of this kind again (`Printed`), unless
its year is one that cannot be read; and only an offset can make such a year.
-/

set_option autoImplicit false

namespace Huntsman.TimeFmt

open Calendar List Pieces Reading

/-! ## The source's functions -/

/-- `digits`: a number of plain digits that is at most `max`, the largest of its type. -/
def digits (max : ℕ) (field : Chars) : Option ℕ :=
  if isDigits field ∧ value field ≤ max then some (value field) else none

def i32Max : ℕ := 2 ^ 31 - 1

def u32Max : ℕ := 2 ^ 32 - 1

def i64Max : ℕ := 2 ^ 63 - 1

/-- `{n:0width}`: the sign counts in the width. -/
def padded (width : ℕ) (n : ℤ) : Chars :=
  if n < 0 then '-' :: (Nat.toDigits 10 n.natAbs).leftpad (width - 1) '0'
  else (Nat.toDigits 10 n.natAbs).leftpad width '0'

/-- `format!("{year:04}-{month:02}-{day:02}")`. -/
def formatDate (year : ℤ) (month day : ℕ) : Chars :=
  ['-'].intercalate [padded 4 year, padded 2 month, padded 2 day]

def formatUnix (ts : ℤ) : Except Fault Chars := do
  let days := ts / 86400
  let rem := ts % 86400
  let (year, month, day) ← civilFromDays days
  let hour := rem.tdiv 3600
  let min := (rem.tmod 3600).tdiv 60
  let sec := rem.tmod 60
  return formatDate year month day ++
    'T' :: ([':'].intercalate [padded 2 hour, padded 2 min, padded 2 sec] ++ ['Z'])

/-- `str::strip_suffix`. -/
def stripSuffix (c : Char) (s : Chars) : Option Chars :=
  if s.getLast? = some c then some s.dropLast else none

/-- The parts of a text around its first `+` or `-`. -/
def splitSign : Chars → Option (Chars × Char × Chars)
  | [] => none
  | c :: s =>
    if c = '+' ∨ c = '-' then some ([], c, s) else (splitSign s).map fun r ↦ (c :: r.1, r.2)

def splitOffset (time : Chars) : Chars × Option (Char × Chars) :=
  match time with
  | [] => (time, none)
  | c :: rest =>
    match splitSign rest with
    | some (before, sign, tail) => (c :: before, some (sign, tail))
    | none => (time, none)

def isDigitByte (b : UInt8) : Prop := 48 ≤ b.toNat ∧ b.toNat ≤ 57

instance : DecidablePred isDigitByte := fun _ ↦ inferInstanceAs (Decidable (_ ∧ _))

def twoDigits (tens units : UInt8) : Read ℤ :=
  if isDigitByte tens ∧ isDigitByte units then
    attempt do i64 ((← i64 ((tens.toNat - 48 : ℕ) * 10)) + (units.toNat - 48 : ℕ))
  else failure

/-- The hours and the minutes, by what `match` finds. -/
def offsetFields : List UInt8 → Read (ℤ × ℤ)
  | [h1, h2, c, m1, m2] => do
    guard (c = ':'.toUInt8)
    return (← twoDigits h1 h2, ← twoDigits m1 m2)
  | [h1, h2, m1, m2] => do return (← twoDigits h1 h2, ← twoDigits m1 m2)
  | _ => failure

def offsetSeconds (tail : List UInt8) : Read ℤ := do
  let (hours, minutes) ← offsetFields tail
  let seconds ← attempt do i64 ((← i64 (hours * 3600)) + (← i64 (minutes * 60)))
  guard (hours ≤ 23 ∧ minutes ≤ 59)
  return seconds

/-- The fields of a clock, with `"0"` for those that are left out. -/
def clockTexts : List Chars → Option (Chars × Chars × Chars)
  | [hour] => some (hour, ['0'], ['0'])
  | [hour, min] => some (hour, min, ['0'])
  | [hour, min, sec] => some (hour, min, sec)
  | _ => none

/-- The whole seconds, and the digits of the fraction if there is one. -/
def splitFraction (sec : Chars) : Chars × Option Chars :=
  match Pieces.splitOnce '.' sec with
  | some (whole, fraction) => (whole, some fraction)
  | none => (sec, none)

def parseClock (clock : Chars) : Option (ℕ × ℕ × ℕ) := do
  let (hour, min, sec) ← clockTexts (clock.splitOn ':')
  let hour ← digits i64Max hour
  let min ← digits i64Max min
  let (whole, fraction) := splitFraction sec
  guard (fraction.all isDigits = true)
  let sec ← digits i64Max whole
  guard (hour ≤ 23 ∧ min ≤ 59 ∧ sec ≤ 59)
  return (hour, min, sec)

/-- The clock and the offset of a time. -/
def splitZone (time : Chars) : Chars × Option (Char × Chars) :=
  match stripSuffix 'Z' time with
  | some clock => (clock, none)
  | none => splitOffset time

/-- The seconds that an offset adds. -/
def parseOffset : Option (Char × Chars) → Read ℤ
  | none => pure 0
  | some (sign, tail) => do
    let seconds ← offsetSeconds (Utf8.encode tail)
    attempt (if sign = '+' then i64 (-seconds) else .ok seconds)

def parseTime (time : Chars) : Read ((ℕ × ℕ × ℕ) × ℤ) := do
  guard (time ≠ [])
  let (clock, offsetSpec) := splitZone time
  let clock ← found (parseClock clock)
  return (clock, ← parseOffset offsetSpec)

def parseDate (date : Chars) : Option (ℕ × ℕ × ℕ) :=
  match date.splitOn '-' with
  | [year, month, day] => do
    let year ← digits i32Max year
    let month ← digits u32Max month
    let day ← digits u32Max day
    guard ((1 ≤ month ∧ month ≤ 12) ∧ 1 ≤ day ∧ day ≤ daysInMonth year month)
    return (year, month, day)
  | _ => none

/-- The date and the time of a text, at its first `T`, or else its first space. -/
def splitTime (text : Chars) : Chars × Option Chars :=
  match Pieces.splitOnce 'T' text <|> Pieces.splitOnce ' ' text with
  | some (date, time) => (date, some time)
  | none => (text, none)

/-- `trimmed.replace('/', "-")`. -/
def normalised (trimmed : Chars) : Chars := trimmed.map fun c ↦ if c = '/' then '-' else c

/-- A text of digits: milliseconds, a year, or seconds. -/
def parseNumber (trimmed : Chars) : Read (ℤ × Chars) := do
  let n ← found (digits i64Max trimmed)
  if 13 ≤ len trimmed then
    return ((n : ℤ).tdiv 1000, ← attempt (formatUnix ((n : ℤ).tdiv 1000)))
  else if len trimmed = 4 then do
    let year ← found (digits i32Max trimmed)
    let ts ← attempt do i64 ((← daysFromCivil year 1 1) * 86400)
    return (ts, padded 4 year ++ "-01-01".toList)
  else
    return ((n : ℤ), ← attempt (formatUnix n))

/-- A date, maybe with a time. -/
def parseFields (text : Chars) : Read (ℤ × Chars) := do
  let (date, time) := splitTime text
  let (year, month, day) ← found (parseDate date)
  let ((hour, min, sec), offset) ← time.elim (pure ((0, 0, 0), 0)) parseTime
  let ts ← attempt do
    let days ← daysFromCivil year month day
    i64 ((← i64 ((← i64 ((← i64 ((← i64 (days * 86400)) + (← i64 (hour * 3600)))) +
      (← i64 (min * 60)))) + sec)) + offset)
  let iso ← attempt (if time.isSome then formatUnix ts else .ok (formatDate year month day))
  return (ts, iso)

def parseTimestampAndIso (raw : Chars) : Read (ℤ × Chars) := do
  let trimmed := trim raw
  guard (trimmed ≠ [])
  if isDigits trimmed then parseNumber trimmed else parseFields (normalised trimmed)

def parseTimestamp (raw : Chars) : Read ℤ := Prod.fst <$> parseTimestampAndIso raw

/-! ## Numbers -/

variable {text field : Chars} {max n v : ℕ}

/-- A field of digits that say a number up to a limit. -/
structure IsField (max : ℕ) (field : Chars) (n : ℕ) : Prop where
  isDigits : isDigits field = true
  value_eq : value field = n
  le : n ≤ max

theorem digits_eq_some : digits max field = some n ↔ IsField max field n := by
  rw [digits]
  split
  · rename_i h
    refine ⟨fun heq ↦ ?_, fun hfield ↦ congrArg some hfield.value_eq⟩
    cases heq
    exact ⟨h.1, rfl, h.2⟩
  · rename_i h
    refine iff_of_false (nofun) fun hfield ↦ h ?_
    exact ⟨hfield.isDigits, hfield.value_eq.trans_le hfield.le⟩

theorem IsField.mono {more : ℕ} (h : IsField max field n) (hmore : max ≤ more) :
    IsField more field n :=
  ⟨h.isDigits, h.value_eq, h.le.trans hmore⟩

theorem IsField.digit (h : IsField max field n) : ∀ c ∈ field, c.isDigit = true :=
  (isDigits_iff.1 h.isDigits).2

theorem padded_natCast (width n : ℕ) : padded width n = (Nat.toDigits 10 n).leftpad width '0' := by
  rw [padded, if_neg (Int.natCast_nonneg n).not_gt, Int.natAbs_natCast]

/-- What is printed of a number are digits that say it. -/
theorem isField_padded (width : ℕ) (h : n ≤ max) : IsField max (padded width n) n := by
  rw [padded_natCast]
  refine ⟨isDigits_iff.2 ⟨?_, ?_⟩, ?_, h⟩
  · rw [leftpad]
    exact append_ne_nil_of_right_ne_nil _ Nat.toDigits_ne_nil
  · intro c hc
    rw [leftpad, mem_append] at hc
    rcases hc with hc | hc
    · rw [eq_of_mem_replicate hc]
      rfl
    · exact Nat.isDigit_of_mem_toDigits (by decide) (by decide) hc
  · rw [value, leftpad, Nat.ofDigitChars_append, Nat.ofDigitChars_replicate_zero,
      Nat.mul_zero, Nat.ofDigitChars_ten_toDigits]

/-! ## Dates -/

/-- A text that is a date, with any number of zeros before its numbers. -/
def IsDateText (text : Chars) (d : Date) : Prop :=
  ∃ year month day y, text = ['-'].intercalate [year, month, day] ∧ IsField i32Max year y ∧
    d.year = y ∧ IsField 12 month d.month ∧ IsField 31 day d.day

variable {c sign : Char} {s h m : ℕ} {k : ℤ}

theorem not_mem_of_digit (h : ∀ a ∈ text, a.isDigit = true) (hc : c.isDigit = false) :
    c ∉ text :=
  fun hmem ↦ absurd ((h c hmem).symm.trans hc) (by decide)

theorem splitOn_fields {sep : Char} {fields : List Chars} (hsep : sep.isDigit = false)
    (hne : fields ≠ []) (h : ∀ field ∈ fields, ∀ c ∈ field, c.isDigit = true) :
    ([sep].intercalate fields).splitOn sep = fields :=
  splitOn_intercalate sep (fun field hfield ↦ not_mem_of_digit (h field hfield) hsep) hne

/-- **Which dates are read.** -/
theorem parseDate_eq_some {year month day : ℕ} : parseDate text = some (year, month, day) ↔
    ∃ d : Date, IsDateText text d ∧ d.year = year ∧ d.month = month ∧ d.day = day := by
  rw [parseDate]
  constructor
  · intro h
    split at h
    · rename_i yearText monthText dayText hsplit
      obtain ⟨y, hy, h⟩ := Option.bind_eq_some_iff.1 h
      obtain ⟨m, hm, h⟩ := Option.bind_eq_some_iff.1 h
      obtain ⟨d, hd, h⟩ := Option.bind_eq_some_iff.1 h
      rw [digits_eq_some] at hy hm hd
      by_cases hdate : (1 ≤ m ∧ m ≤ 12) ∧ 1 ≤ d ∧ d ≤ daysInMonth y m
      · rw [guard, if_pos hdate] at h
        obtain ⟨rfl, rfl, rfl⟩ : y = year ∧ m = month ∧ d = day := by simpa using h
        have hlast := hdate.2.2
        rw [daysInMonth, monthDays_eq, if_pos hdate.1] at hlast
        have hle : d ≤ 31 := hlast.trans (monthLength_le y m)
        refine ⟨⟨y, m, d, isDate_iff.2 hdate⟩, ?_, rfl, rfl, rfl⟩
        refine ⟨yearText, monthText, dayText, y, ?_, hy, rfl, ⟨hm.1, hm.2, hdate.1.2⟩,
          ⟨hd.1, hd.2, hle⟩⟩
        rw [← hsplit, intercalate_splitOn]
      · rw [guard, if_neg hdate] at h
        cases h
    · cases h
  · rintro ⟨d, ⟨yearText, monthText, dayText, y, rfl, hy, hyear, hm, hd⟩, hyear', rfl, rfl⟩
    obtain rfl : y = year := by omega
    have hdate := isDate_iff.1 d.isDate
    rw [hyear] at hdate
    rw [splitOn_fields (by decide) (cons_ne_nil _ _)]
    · dsimp only
      rw [digits_eq_some.2 hy, digits_eq_some.2 (hm.mono (by decide)),
        digits_eq_some.2 (hd.mono (by decide))]
      simp only [Option.bind_eq_bind, Option.bind_some]
      rw [guard, if_pos hdate]
      rfl
    · simp only [forall_mem_cons]
      exact ⟨hy.digit, hm.digit, hd.digit, fun _ h ↦ absurd h not_mem_nil⟩

/-! ## Clocks -/

/-- Seconds, and maybe a fraction that is left out. -/
def IsSeconds (text : Chars) (s : ℕ) : Prop :=
  IsField 59 text s ∨ ∃ whole fraction, text = whole ++ '.' :: fraction ∧
    isDigits fraction = true ∧ IsField 59 whole s

/-- A clock, of which the seconds, or the minutes and the seconds, may be left out. -/
def IsClock (text : Chars) (h m s : ℕ) : Prop :=
  ∃ fields hour min sec, text = [':'].intercalate fields ∧
    clockTexts fields = some (hour, min, sec) ∧
    IsField 23 hour h ∧ IsField 59 min m ∧ IsSeconds sec s

/-- A character that a clock may have. -/
def IsClockChar (c : Char) : Prop := c.isDigit = true ∨ c = ':' ∨ c = '.'

theorem IsSeconds.ne_colon (h : IsSeconds text s) :
    ∀ c ∈ text, c.isDigit = true ∨ c = '.' := by
  intro c hc
  rcases h with h | ⟨whole, fraction, rfl, hfraction, h⟩
  · exact .inl (h.digit c hc)
  · rcases mem_append.1 hc with hc | hc
    · exact .inl (h.digit c hc)
    · rcases mem_cons.1 hc with rfl | hc
      · exact .inr rfl
      · exact .inl ((isDigits_iff.1 hfraction).2 c hc)

theorem mem_of_clockTexts {fields : List Chars} {hour min sec : Chars}
    (h : clockTexts fields = some (hour, min, sec)) :
    fields ≠ [] ∧ ∀ field ∈ fields, field = hour ∨ field = min ∨ field = sec := by
  rcases fields with _ | ⟨a, _ | ⟨b, _ | ⟨c, _ | ⟨d, fields⟩⟩⟩⟩ <;>
    simp_all [clockTexts]

/-- What a clock looks like, and that it is cut where it was put together. -/
theorem IsClock.fields (hclock : IsClock text h m s) :
    ∃ hour min sec, clockTexts (text.splitOn ':') = some (hour, min, sec) ∧
      IsField 23 hour h ∧ IsField 59 min m ∧ IsSeconds sec s := by
  obtain ⟨fields, hour, min, sec, rfl, htexts, hh, hm, hs⟩ := hclock
  obtain ⟨hne, hmem⟩ := mem_of_clockTexts htexts
  refine ⟨hour, min, sec, ?_, hh, hm, hs⟩
  rw [splitOn_intercalate ':' _ hne, htexts]
  intro field hfield hcolon
  rcases hmem field hfield with rfl | rfl | rfl
  · exact absurd (hh.digit _ hcolon) (by decide)
  · exact absurd (hm.digit _ hcolon) (by decide)
  · exact absurd (hs.ne_colon _ hcolon) (by decide)

theorem splitFraction_of_isSeconds (h : IsSeconds text s) : ∃ whole fraction,
    splitFraction text = (whole, fraction) ∧ fraction.all isDigits = true ∧ IsField 59 whole s := by
  rcases h with h | ⟨whole, fraction, rfl, hfraction, h⟩
  · refine ⟨text, none, ?_, rfl, h⟩
    rw [splitFraction, splitOnce_none (not_mem_of_digit h.digit (by decide))]
  · refine ⟨whole, some fraction, ?_, hfraction, h⟩
    rw [splitFraction, splitOnce_append (not_mem_of_digit h.digit (by decide))]

theorem isSeconds_of_splitFraction {whole : Chars} {fraction : Option Chars}
    (hsplit : splitFraction text = (whole, fraction)) (hfraction : fraction.all isDigits = true)
    (h : IsField 59 whole s) : IsSeconds text s := by
  rw [splitFraction] at hsplit
  split at hsplit
  · rename_i before after hparts
    obtain ⟨rfl, rfl⟩ := Prod.mk.inj hsplit
    exact .inr ⟨before, after, (splitOnce_eq_some.1 hparts).1, hfraction, h⟩
  · obtain ⟨rfl, rfl⟩ := Prod.mk.inj hsplit
    exact .inl h

/-- **Which clocks are read.** -/
theorem parseClock_eq_some : parseClock text = some (h, m, s) ↔ IsClock text h m s := by
  rw [parseClock]
  constructor
  · intro heq
    obtain ⟨⟨hour, min, sec⟩, htexts, heq⟩ := Option.bind_eq_some_iff.1 heq
    obtain ⟨h', hh, heq⟩ := Option.bind_eq_some_iff.1 heq
    obtain ⟨m', hm, heq⟩ := Option.bind_eq_some_iff.1 heq
    rcases hsplit : splitFraction sec with ⟨whole, fraction⟩
    rw [hsplit] at heq
    dsimp only at heq
    by_cases hfraction : fraction.all isDigits = true
    · rw [guard, if_pos hfraction] at heq
      replace heq : (digits i64Max whole).bind (fun sec ↦
          (guard (h' ≤ 23 ∧ m' ≤ 59 ∧ sec ≤ 59) : Option Unit).bind fun _ ↦ some (h', m', sec)) =
        some (h, m, s) := heq
      obtain ⟨s', hs, heq⟩ := Option.bind_eq_some_iff.1 heq
      rw [digits_eq_some] at hh hm hs
      by_cases hrange : h' ≤ 23 ∧ m' ≤ 59 ∧ s' ≤ 59
      · rw [guard, if_pos hrange] at heq
        obtain ⟨rfl, rfl, rfl⟩ : h' = h ∧ m' = m ∧ s' = s := by simpa using heq
        refine ⟨text.splitOn ':', hour, min, sec, ?_, htexts, ⟨hh.1, hh.2, hrange.1⟩,
          ⟨hm.1, hm.2, hrange.2.1⟩,
          isSeconds_of_splitFraction hsplit hfraction ⟨hs.1, hs.2, hrange.2.2⟩⟩
        rw [intercalate_splitOn]
      · rw [guard, if_neg hrange] at heq
        cases heq
    · rw [guard, if_neg hfraction] at heq
      cases heq
  · intro hclock
    obtain ⟨hour, min, sec, htexts, hh, hm, hs⟩ := hclock.fields
    obtain ⟨whole, fraction, hsplit, hfraction, hs⟩ := splitFraction_of_isSeconds hs
    have hrange : h ≤ 23 ∧ m ≤ 59 ∧ s ≤ 59 := ⟨hh.le, hm.le, hs.le⟩
    rw [htexts, Option.bind_eq_bind, Option.bind_some]
    dsimp only
    rw [digits_eq_some.2 (hh.mono (by decide)), digits_eq_some.2 (hm.mono (by decide)), hsplit]
    dsimp only
    rw [digits_eq_some.2 (hs.mono (by decide)), guard, if_pos hfraction]
    simp only [Option.bind_eq_bind, Option.bind_some, Option.pure_def, guard, if_pos hrange]

theorem IsClock.bounds (hclock : IsClock text h m s) : h ≤ 23 ∧ m ≤ 59 ∧ s ≤ 59 := by
  obtain ⟨hour, min, sec, -, hh, hm, hs⟩ := hclock.fields
  obtain ⟨whole, fraction, -, -, hs⟩ := splitFraction_of_isSeconds hs
  exact ⟨hh.le, hm.le, hs.le⟩

/-- A clock begins with a digit, and has no other characters than digits, `:` and `.`. -/
theorem IsClock.chars (hclock : IsClock text h m s) :
    text ≠ [] ∧ ∀ c ∈ text, IsClockChar c := by
  constructor
  · rintro rfl
    obtain ⟨hour, min, sec, htexts, hh, -⟩ := hclock.fields
    rw [splitOn_nil] at htexts
    cases htexts
    exact absurd hh.isDigits (by decide)
  · intro c hc
    obtain ⟨fields, hour, min, sec, rfl, htexts, hh, hm, hs⟩ := hclock
    obtain ⟨hne, hmem⟩ := mem_of_clockTexts htexts
    rcases mem_of_mem_intercalate hc with hc | ⟨field, hfield, hc⟩
    · exact .inr (.inl (mem_singleton.1 hc))
    · rcases hmem field hfield with rfl | rfl | rfl
      · exact .inl (hh.digit c hc)
      · exact .inl (hm.digit c hc)
      · exact (hs.ne_colon c hc).imp_right .inr

/-! ## Offsets -/

/-- Two bytes that are digits, and what they say. -/
def Says (tens units : UInt8) (v : ℤ) : Prop :=
  isDigitByte tens ∧ isDigitByte units ∧
    v = ((tens.toNat - 48 : ℕ) : ℤ) * 10 + (units.toNat - 48 : ℕ)

theorem Says.bound {tens units : UInt8} {v : ℤ} (h : Says tens units v) : 0 ≤ v ∧ v ≤ 99 := by
  obtain ⟨htens, hunits, rfl⟩ := h
  rw [isDigitByte] at htens hunits
  omega

theorem twoDigits_answers (tens units : UInt8) : Answers (twoDigits tens units) (Says tens units) := by
  rw [twoDigits]
  split
  · rename_i h
    obtain ⟨⟨hlow, hhigh⟩, hlow', hhigh'⟩ := h
    rw [i64_bind (by omega), i64, if_pos ⟨by omega, by omega⟩]
    refine .of_some rfl fun v ↦ ⟨fun hv ↦ hv.2.2.symm, ?_⟩
    rintro rfl
    exact ⟨⟨hlow, hhigh⟩, ⟨hlow', hhigh'⟩, rfl⟩
  · rename_i h
    exact .of_none rfl fun v hv ↦ h ⟨hv.1, hv.2.1⟩

theorem pair_answers (h1 h2 m1 m2 : UInt8) :
    Answers (do return (← twoDigits h1 h2, ← twoDigits m1 m2))
      fun p ↦ Says h1 h2 p.1 ∧ Says m1 m2 p.2 := by
  refine ((twoDigits_answers h1 h2).bind fun hours _ ↦ (twoDigits_answers m1 m2).bind
    fun minutes _ ↦ .of_some (P := fun p ↦ (hours, minutes) = p) rfl fun p ↦ Iff.rfl).congr ?_
  rintro ⟨hours, minutes⟩
  constructor
  · rintro ⟨hours', hh, minutes', hm, heq⟩
    cases heq
    exact ⟨hh, hm⟩
  · exact fun ⟨hh, hm⟩ ↦ ⟨hours, hh, minutes, hm, rfl⟩

theorem offsetFields_answers (tail : List UInt8) : Answers (offsetFields tail) fun p ↦
    ∃ h1 h2 m1 m2, (tail = [h1, h2, ':'.toUInt8, m1, m2] ∨ tail = [h1, h2, m1, m2]) ∧
      Says h1 h2 p.1 ∧ Says m1 m2 p.2 := by
  rcases tail with _ | ⟨h1, _ | ⟨h2, _ | ⟨c, _ | ⟨m1, _ | ⟨m2, _ | ⟨b, tail⟩⟩⟩⟩⟩⟩
  · exact .of_none rfl (by simp)
  · exact .of_none rfl (by simp)
  · exact .of_none rfl (by simp)
  · exact .of_none rfl (by simp)
  · rw [offsetFields]
    refine (pair_answers h1 h2 c m1).congr fun p ↦ ⟨fun h ↦ ⟨h1, h2, c, m1, .inr rfl, h⟩, ?_⟩
    rintro ⟨a, b, d, e, htail, h⟩
    obtain ⟨rfl, rfl, rfl, rfl⟩ : h1 = a ∧ h2 = b ∧ c = d ∧ m1 = e := by simpa using htail
    exact h
  · rw [offsetFields]
    by_cases hc : c = ':'.toUInt8
    · subst hc
      refine .of_run (run_guard_bind rfl _) ((pair_answers h1 h2 m1 m2).congr fun p ↦
        ⟨fun h ↦ ⟨h1, h2, m1, m2, .inl rfl, h⟩, ?_⟩)
      rintro ⟨a, b, d, e, htail, h⟩
      obtain ⟨rfl, rfl, rfl, rfl⟩ : h1 = a ∧ h2 = b ∧ m1 = d ∧ m2 = e := by simpa using htail
      exact h
    · refine .of_none (run_guard_neg hc _) ?_
      rintro p ⟨a, b, d, e, htail, -⟩
      exact hc (by simp_all)
  · exact .of_none rfl (by simp)

/-- The seconds of an offset, from its bytes. -/
theorem offsetSeconds_answers (tail : List UInt8) : Answers (offsetSeconds tail) fun s ↦
    ∃ p : ℤ × ℤ, (∃ h1 h2 m1 m2,
      (tail = [h1, h2, ':'.toUInt8, m1, m2] ∨ tail = [h1, h2, m1, m2]) ∧
        Says h1 h2 p.1 ∧ Says m1 m2 p.2) ∧
      (p.1 ≤ 23 ∧ p.2 ≤ 59) ∧ p.1 * 3600 + p.2 * 60 = s := by
  rw [offsetSeconds]
  refine (offsetFields_answers tail).bind fun p hp ↦ ?_
  obtain ⟨hours, minutes⟩ := p
  obtain ⟨h1, h2, m1, m2, -, hhours, hminutes⟩ := hp
  have hh := hhours.bound
  have hm := hminutes.bound
  have hsum : (do i64 ((← i64 (hours * 3600)) + (← i64 (minutes * 60))) : Except Fault ℤ) =
      .ok (hours * 3600 + minutes * 60) := by
    dsimp only at hh hm
    rw [i64_bind (by omega), i64_bind (by omega), i64, if_pos ⟨by omega, by omega⟩]
  refine .of_run (run_attempt_bind hsum _) ?_
  by_cases hrange : hours ≤ 23 ∧ minutes ≤ 59
  · refine .of_run (run_guard_bind hrange _) (.of_some rfl fun s ↦ ?_)
    exact and_iff_right hrange
  · exact .of_none (run_guard_neg hrange _) fun s hs ↦ hrange hs.1

theorem isNumber_two {a b : Char} : IsNumber 2 [a, b] v ↔
    (a.isDigit = true ∧ b.isDigit = true) ∧ v = (a.toNat - 48) * 10 + (b.toNat - 48) := by
  have hvalue : value [a, b] = (a.toNat - 48) * 10 + (b.toNat - 48) := by
    have hfirst : '0'.toNat = 48 := rfl
    rw [value, Nat.ofDigitChars_cons, Nat.ofDigitChars_cons, Nat.ofDigitChars_nil, hfirst]
    omega
  constructor
  · rintro ⟨-, hdigit, rfl⟩
    rw [forall_mem_cons, forall_mem_singleton] at hdigit
    exact ⟨hdigit, hvalue⟩
  · rintro ⟨hdigit, rfl⟩
    exact ⟨rfl, forall_mem_cons.2 ⟨hdigit.1, forall_mem_singleton.2 hdigit.2⟩, hvalue⟩

/-- Two digits are bytes that say the same. -/
theorem says_iff {a b : Char} (ha : a.toNat < 128) (hb : b.toNat < 128) {v : ℤ} :
    Says a.toUInt8 b.toUInt8 v ↔ ∃ n, IsNumber 2 [a, b] n ∧ v = n := by
  have hdigit {c : Char} (hc : c.toNat < 128) : isDigitByte c.toUInt8 ↔ c.isDigit = true := by
    rw [isDigitByte, Utf8.toNat_toUInt8 hc, Char.isDigit, Bool.and_eq_true, decide_eq_true_eq,
      decide_eq_true_eq]
    exact Iff.rfl
  rw [Says, hdigit ha, hdigit hb, Utf8.toNat_toUInt8 ha, Utf8.toNat_toUInt8 hb]
  simp only [isNumber_two]
  constructor
  · rintro ⟨ha, hb, rfl⟩
    exact ⟨_, ⟨⟨ha, hb⟩, rfl⟩, by push_cast; rfl⟩
  · rintro ⟨n, ⟨⟨ha, hb⟩, rfl⟩, rfl⟩
    exact ⟨ha, hb, by push_cast; rfl⟩

/-- An offset of hours and minutes. -/
def IsOffset (tail : Chars) (seconds : ℕ) : Prop :=
  ∃ a b d e hours minutes, (tail = [a, b, ':', d, e] ∨ tail = [a, b, d, e]) ∧
    IsNumber 2 [a, b] hours ∧ IsNumber 2 [d, e] minutes ∧ hours ≤ 23 ∧ minutes ≤ 59 ∧
    seconds = hours * 3600 + minutes * 60

/-- The last character of an offset is a digit, and the others are digits and maybe a colon. -/
theorem IsOffset.chars {seconds : ℕ} (h : IsOffset text seconds) :
    (∀ c ∈ text, c.isDigit = true ∨ c = ':') ∧ ∃ c, text.getLast? = some c ∧ c.isDigit = true := by
  obtain ⟨a, b, d, e, hours, minutes, htext, hhours, hminutes, -⟩ := h
  obtain ⟨⟨ha, hb⟩, -⟩ := isNumber_two.1 hhours
  obtain ⟨⟨hd, he⟩, -⟩ := isNumber_two.1 hminutes
  rcases htext with rfl | rfl
  · exact ⟨by simp [ha, hb, hd, he], e, rfl, he⟩
  · exact ⟨by simp [ha, hb, hd, he], e, rfl, he⟩

theorem forall_digitByte {bytes : List UInt8} (h : ∀ b ∈ bytes, isDigitByte b ∨ b = ':'.toUInt8) :
    ∀ b ∈ bytes, b.toNat < 128 := by
  intro b hb
  rcases h b hb with hdigit | rfl
  · exact hdigit.2.trans_lt (by decide)
  · decide

/-- **Which offsets are read.** -/
theorem offset_answers (tail : Chars) : Answers (offsetSeconds (Utf8.encode tail))
    fun s ↦ ∃ n, IsOffset tail n ∧ s = n := by
  refine (offsetSeconds_answers _).congr fun s ↦ ?_
  constructor
  · rintro ⟨⟨hours, minutes⟩, ⟨h1, h2, m1, m2, htail, hhours, hminutes⟩, hrange, rfl⟩
    have hlt : ∀ b ∈ Utf8.encode tail, b.toNat < 128 := by
      refine forall_digitByte ?_
      rcases htail with htail | htail <;>
        · rw [htail]
          simp [hhours.1, hhours.2.1, hminutes.1, hminutes.2.1]
    obtain ⟨hmap, hascii⟩ := Utf8.map_of_encode rfl hlt
    obtain ⟨a, b, d, e, htail', rfl, rfl, rfl, rfl⟩ : ∃ a b d e,
        (tail = [a, b, ':', d, e] ∨ tail = [a, b, d, e]) ∧ a.toUInt8 = h1 ∧ b.toUInt8 = h2 ∧
          d.toUInt8 = m1 ∧ e.toUInt8 = m2 := by
      rcases htail with htail | htail
      · rw [htail] at hmap
        rcases tail with _ | ⟨a, _ | ⟨b, _ | ⟨c, _ | ⟨d, _ | ⟨e, _ | ⟨f, tail⟩⟩⟩⟩⟩⟩ <;>
          simp at hmap hascii
        obtain ⟨ha, hb, hc, hd, he⟩ := hmap
        rw [Utf8.toUInt8_inj hascii.2.2.1 (by decide)] at hc
        exact ⟨a, b, d, e, .inl (hc ▸ rfl), ha, hb, hd, he⟩
      · rw [htail] at hmap
        rcases tail with _ | ⟨a, _ | ⟨b, _ | ⟨d, _ | ⟨e, _ | ⟨f, tail⟩⟩⟩⟩⟩ <;> simp at hmap
        obtain ⟨ha, hb, hd, he⟩ := hmap
        exact ⟨a, b, d, e, .inr rfl, ha, hb, hd, he⟩
    obtain ⟨ha, hb, hd, he⟩ : a.toNat < 128 ∧ b.toNat < 128 ∧ d.toNat < 128 ∧ e.toNat < 128 := by
      rcases htail' with rfl | rfl <;> simp_all
    obtain ⟨h, hh, rfl⟩ := (says_iff ha hb).1 hhours
    obtain ⟨m, hm, rfl⟩ := (says_iff hd he).1 hminutes
    dsimp only at hrange
    exact ⟨h * 3600 + m * 60, ⟨a, b, d, e, h, m, htail', hh, hm, by omega, by omega, rfl⟩,
      by push_cast; rfl⟩
  · rintro ⟨n, ⟨a, b, d, e, hours, minutes, htail, hhours, hminutes, hh, hm, rfl⟩, rfl⟩
    have hlt {c : Char} (hc : c.isDigit = true) : c.toNat < 128 :=
      (toNat_of_isDigit hc).2.trans_lt (by decide)
    obtain ⟨⟨ha, hb⟩, -⟩ := isNumber_two.1 hhours
    obtain ⟨⟨hd, he⟩, -⟩ := isNumber_two.1 hminutes
    refine ⟨(hours, minutes), ⟨a.toUInt8, b.toUInt8, d.toUInt8, e.toUInt8, ?_,
      (says_iff (hlt ha) (hlt hb)).2 ⟨hours, hhours, rfl⟩,
      (says_iff (hlt hd) (hlt he)).2 ⟨minutes, hminutes, rfl⟩⟩, by dsimp only; omega,
      by push_cast; rfl⟩
    rcases htail with rfl | rfl
    · refine .inl (Utf8.encode_of_ascii ?_)
      simp [hlt ha, hlt hb, hlt hd, hlt he]
    · refine .inr (Utf8.encode_of_ascii ?_)
      simp [hlt ha, hlt hb, hlt hd, hlt he]

/-! ## Times -/

/-- A clock, maybe with `Z` or an offset after it, and the seconds that this adds. -/
inductive IsTime : Chars → ℕ × ℕ × ℕ → ℤ → Prop
  | utc {clock : Chars} {h m s : ℕ} (hclock : IsClock clock h m s) :
      IsTime (clock ++ ['Z']) (h, m, s) 0
  | bare {clock : Chars} {h m s : ℕ} (hclock : IsClock clock h m s) : IsTime clock (h, m, s) 0
  | east {clock tail : Chars} {h m s n : ℕ} (hclock : IsClock clock h m s)
      (htail : IsOffset tail n) : IsTime (clock ++ '+' :: tail) (h, m, s) (-n)
  | west {clock tail : Chars} {h m s n : ℕ} (hclock : IsClock clock h m s)
      (htail : IsOffset tail n) : IsTime (clock ++ '-' :: tail) (h, m, s) n

theorem splitSign_append {s : Chars} (h : ∀ a ∈ s, a ≠ '+' ∧ a ≠ '-')
    (hc : c = '+' ∨ c = '-') (t : Chars) : splitSign (s ++ c :: t) = some (s, c, t) := by
  induction s with
  | nil => rw [nil_append, splitSign, if_pos hc]
  | cons a s ih =>
    rw [forall_mem_cons] at h
    rw [cons_append, splitSign, if_neg (not_or.2 h.1), ih h.2]
    rfl

theorem splitSign_eq_none {s : Chars} (h : ∀ a ∈ s, a ≠ '+' ∧ a ≠ '-') : splitSign s = none := by
  induction s with
  | nil => rfl
  | cons a s ih =>
    rw [forall_mem_cons] at h
    rw [splitSign, if_neg (not_or.2 h.1), ih h.2]
    rfl

theorem splitSign_eq_some {s before after : Chars}
    (h : splitSign s = some (before, c, after)) :
    s = before ++ c :: after ∧ (c = '+' ∨ c = '-') := by
  induction s generalizing before with
  | nil => cases h
  | cons a s ih =>
    rw [splitSign] at h
    split at h
    · rename_i ha
      obtain ⟨rfl, rfl, rfl⟩ : [] = before ∧ a = c ∧ s = after := by simpa using h
      exact ⟨rfl, ha⟩
    · obtain ⟨⟨front, sign, tail⟩, hr, heq⟩ := Option.map_eq_some_iff.1 h
      obtain ⟨rfl, rfl, rfl⟩ : a :: front = before ∧ sign = c ∧ tail = after := by simpa using heq
      obtain ⟨hs, hc⟩ := ih hr
      exact ⟨by rw [hs]; rfl, hc⟩

theorem stripSuffix_append (c : Char) (s : Chars) : stripSuffix c (s ++ [c]) = some s := by
  rw [stripSuffix, if_pos getLast?_concat, dropLast_concat]

theorem stripSuffix_eq_some {s before : Chars} (h : stripSuffix c s = some before) :
    s = before ++ [c] := by
  rw [stripSuffix] at h
  split at h
  · rename_i hlast
    cases h
    exact (dropLast_append_getLast? c hlast).symm
  · cases h

/-- What an offset that was split off adds. -/
def Adds : Option (Char × Chars) → ℤ → Prop
  | none, offset => offset = 0
  | some (sign, tail), offset => (sign = '+' ∨ sign = '-') ∧
      ∃ n : ℕ, IsOffset tail n ∧ offset = if sign = '+' then -(n : ℤ) else n

theorem IsClockChar.ne (h : IsClockChar c) : c ≠ '+' ∧ c ≠ '-' ∧ c ≠ 'Z' ∧ c ≠ 'T' := by
  refine ⟨?_, ?_, ?_, ?_⟩ <;>
    · rintro rfl
      rcases h with h | h | h <;> simp at h

theorem splitOffset_of_clock {clock : Chars} (hclock : IsClock clock h m s) :
    splitOffset clock = (clock, none) := by
  obtain ⟨hne, hchars⟩ := hclock.chars
  rcases clock with _ | ⟨c, rest⟩
  · exact absurd rfl hne
  · rw [forall_mem_cons] at hchars
    have hrest : ∀ a ∈ rest, a ≠ '+' ∧ a ≠ '-' := fun a ha ↦
      ⟨(hchars.2 a ha).ne.1, (hchars.2 a ha).ne.2.1⟩
    rw [splitOffset, splitSign_eq_none hrest]

theorem splitOffset_append {clock tail : Chars}
    (hclock : IsClock clock h m s) (hsign : sign = '+' ∨ sign = '-') :
    splitOffset (clock ++ sign :: tail) = (clock, some (sign, tail)) := by
  obtain ⟨hne, hchars⟩ := hclock.chars
  rcases clock with _ | ⟨c, rest⟩
  · exact absurd rfl hne
  · rw [forall_mem_cons] at hchars
    have hrest : ∀ a ∈ rest, a ≠ '+' ∧ a ≠ '-' := fun a ha ↦
      ⟨(hchars.2 a ha).ne.1, (hchars.2 a ha).ne.2.1⟩
    rw [cons_append, splitOffset, splitSign_append hrest hsign]

theorem stripSuffix_eq_none {s : Chars} (h : s.getLast? ≠ some c) :
    stripSuffix c s = none := if_neg h

theorem splitZone_append {clock tail : Chars}
    (hclock : IsClock clock h m s) (hsign : sign = '+' ∨ sign = '-') (htail : IsOffset tail n) :
    splitZone (clock ++ sign :: tail) = (clock, some (sign, tail)) := by
  obtain ⟨-, c, hlast, hdigit⟩ := htail.chars
  have hne : tail ≠ [] := by
    rintro rfl
    exact absurd hlast (Option.some_ne_none c).symm
  rw [splitZone, stripSuffix_eq_none, splitOffset_append hclock hsign]
  rw [getLast?_append_cons _ _ hne, hlast]
  rintro hz
  cases hz
  simp at hdigit

theorem splitZone_of_clock {clock : Chars} (hclock : IsClock clock h m s) :
    splitZone clock = (clock, none) := by
  rw [splitZone, stripSuffix_eq_none, splitOffset_of_clock hclock]
  intro hlast
  exact (hclock.chars.2 'Z' (mem_of_getLast? hlast)).ne.2.2.1 rfl

/-- What a time was put together from. -/
theorem splitZone_eq {time clock : Chars} {spec : Option (Char × Chars)}
    (h : splitZone time = (clock, spec)) :
    (spec = none ∧ (time = clock ++ ['Z'] ∨ time = clock)) ∨
      ∃ sign tail, spec = some (sign, tail) ∧ time = clock ++ sign :: tail := by
  rw [splitZone] at h
  split at h
  · rename_i front hfront
    cases h
    exact .inl ⟨rfl, .inl (stripSuffix_eq_some hfront)⟩
  · rcases time with _ | ⟨c, rest⟩
    · cases h
      exact .inl ⟨rfl, .inr rfl⟩
    · rw [splitOffset] at h
      split at h
      · rename_i before sign tail hsplit
        cases h
        exact .inr ⟨sign, tail, rfl, by rw [(splitSign_eq_some hsplit).1]; rfl⟩
      · cases h
        exact .inl ⟨rfl, .inr rfl⟩

/-- **A time is taken apart as it was put together.** -/
theorem isTime_iff {time : Chars} {offset : ℤ} : IsTime time (h, m, s) offset ↔
    IsClock (splitZone time).1 h m s ∧ Adds (splitZone time).2 offset := by
  constructor
  · intro htime
    generalize hr : (h, m, s) = r at htime
    cases htime with
    | utc hclock =>
      cases hr
      rw [splitZone, stripSuffix_append]
      exact ⟨hclock, rfl⟩
    | bare hclock =>
      cases hr
      rw [splitZone_of_clock hclock]
      exact ⟨hclock, rfl⟩
    | east hclock htail =>
      cases hr
      rw [splitZone_append hclock (.inl rfl) htail]
      exact ⟨hclock, .inl rfl, _, htail, rfl⟩
    | west hclock htail =>
      cases hr
      rw [splitZone_append hclock (.inr rfl) htail]
      exact ⟨hclock, .inr rfl, _, htail, rfl⟩
  · rintro ⟨hclock, hadds⟩
    rcases hsplit : splitZone time with ⟨clock, spec⟩
    rw [hsplit] at hclock hadds
    rcases splitZone_eq hsplit with ⟨rfl, rfl | rfl⟩ | ⟨sign, tail, rfl, rfl⟩
    · obtain rfl : offset = 0 := hadds
      exact .utc hclock
    · obtain rfl : offset = 0 := hadds
      exact .bare hclock
    · obtain ⟨rfl | rfl, n, htail, rfl⟩ := hadds
      · exact .east hclock htail
      · exact .west hclock htail

theorem IsOffset.le (h : IsOffset text n) : n ≤ 86340 := by
  obtain ⟨a, b, d, e, hours, minutes, -, -, -, hh, hm, rfl⟩ := h
  omega

/-- The sign was found as one. -/
theorem sign_of_splitZone {time clock tail : Chars}
    (h : splitZone time = (clock, some (sign, tail))) : sign = '+' ∨ sign = '-' := by
  rw [splitZone] at h
  split at h
  · simp at h
  · rcases time with _ | ⟨c, rest⟩
    · simp [splitOffset] at h
    · rw [splitOffset] at h
      split at h
      · rename_i before sign' tail' hsplit
        obtain ⟨rfl, rfl, rfl⟩ : c :: before = clock ∧ sign' = sign ∧ tail' = tail := by simpa using h
        exact (splitSign_eq_some hsplit).2
      · simp at h

theorem parseOffset_answers {spec : Option (Char × Chars)}
    (hsign : ∀ sign tail, spec = some (sign, tail) → sign = '+' ∨ sign = '-') :
    Answers (parseOffset spec) (Adds spec) := by
  rcases spec with _ | ⟨sign, tail⟩
  · exact .of_some rfl fun offset ↦ eq_comm
  · refine ((offset_answers tail).bind
      (R := fun s offset ↦ (if sign = '+' then -s else s) = offset) fun s hs ↦ ?_).congr
        fun offset ↦ ?_
    · obtain ⟨n, hn, rfl⟩ := hs
      have hle := hn.le
      split
      · rw [i64, if_pos ⟨by omega, by omega⟩]
        exact .of_some rfl fun _ ↦ Iff.rfl
      · exact .of_some rfl fun _ ↦ Iff.rfl
    · constructor
      · rintro ⟨s, ⟨n, hn, rfl⟩, rfl⟩
        exact ⟨hsign sign tail rfl, n, hn, rfl⟩
      · rintro ⟨-, n, hn, rfl⟩
        exact ⟨n, ⟨n, hn, rfl⟩, rfl⟩

/-- **Which times are read.** -/
theorem parseTime_answers (time : Chars) :
    Answers (parseTime time) fun r ↦ IsTime time r.1 r.2 := by
  rw [parseTime]
  by_cases hne : time = []
  · subst hne
    refine .of_none (run_guard_neg (not_not_intro rfl) _) ?_
    rintro ⟨⟨h, m, s⟩, offset⟩ htime
    exact absurd rfl (isTime_iff.1 htime).1.chars.1
  · refine .of_run (run_guard_bind hne _) ?_
    have hsign : ∀ sign tail, (splitZone time).2 = some (sign, tail) → sign = '+' ∨ sign = '-' :=
      fun _ _ h ↦ sign_of_splitZone (Prod.ext rfl h)
    have hclock : Answers (found (parseClock (splitZone time).1) : Read (ℕ × ℕ × ℕ))
        fun c ↦ IsClock (splitZone time).1 c.1 c.2.1 c.2.2 :=
      .found fun ⟨h, m, s⟩ ↦ parseClock_eq_some
    refine (hclock.bind fun c _ ↦ (parseOffset_answers hsign).bind fun offset _ ↦
      .of_some (P := fun r ↦ (c, offset) = r) rfl fun r ↦ Iff.rfl).congr ?_
    rintro ⟨⟨h, m, s⟩, offset⟩
    rw [isTime_iff]
    constructor
    · rintro ⟨c, hc, offset', hoffset, heq⟩
      cases heq
      exact ⟨hc, hoffset⟩
    · exact fun ⟨hc, hoffset⟩ ↦ ⟨(h, m, s), hc, offset, hoffset, rfl⟩

/-! ## Texts with a date -/

theorem IsDateText.chars {d : Date} (h : IsDateText text d) :
    '-' ∈ text ∧ ∀ c ∈ text, c.isDigit = true ∨ c = '-' := by
  obtain ⟨year, month, day, y, rfl, hy, -, hm, hd⟩ := h
  constructor
  · rw [intercalate_cons_cons]
    exact mem_append_left _ (mem_append_right _ (.head _))
  · intro c hc
    rcases mem_of_mem_intercalate hc with hc | ⟨field, hfield, hmem⟩
    · exact .inr (mem_singleton.1 hc)
    · simp only [mem_cons, not_mem_nil, or_false] at hfield
      rcases hfield with rfl | rfl | rfl
      · exact .inl (hy.digit c hmem)
      · exact .inl (hm.digit c hmem)
      · exact .inl (hd.digit c hmem)

theorem IsDateText.not_mem {d : Date} (h : IsDateText text d) (hc : c = 'T' ∨ c = ' ') :
    c ∉ text := by
  intro hmem
  rcases hc with rfl | rfl <;> rcases h.chars.2 _ hmem with hc | hc <;> simp at hc

theorem IsTime.not_mem {time : Chars} {clock : ℕ × ℕ × ℕ} {offset : ℤ}
    (h : IsTime time clock offset) : 'T' ∉ time := by
  have hclockT {text : Chars} {h m s : ℕ} (hclock : IsClock text h m s) : 'T' ∉ text :=
    fun hmem ↦ (hclock.chars.2 'T' hmem).ne.2.2.2 rfl
  have htailT {tail : Chars} {n : ℕ} (htail : IsOffset tail n) : 'T' ∉ tail := fun hmem ↦ by
    rcases htail.chars.1 'T' hmem with hc | hc <;> simp at hc
  cases h with
  | utc hclock => simpa using hclockT hclock
  | bare hclock => exact hclockT hclock
  | east hclock htail => simpa using ⟨hclockT hclock, htailT htail⟩
  | west hclock htail => simpa using ⟨hclockT hclock, htailT htail⟩

theorem splitTime_of_date {d : Date} (h : IsDateText text d) : splitTime text = (text, none) := by
  rw [splitTime, splitOnce_none (h.not_mem (.inl rfl)),
    splitOnce_none (h.not_mem (.inr rfl))]
  rfl

theorem splitTime_append {date time : Chars} {sep : Char} {d : Date} {clock : ℕ × ℕ × ℕ}
    {offset : ℤ} (hdate : IsDateText date d) (hsep : sep = 'T' ∨ sep = ' ')
    (htime : IsTime time clock offset) : splitTime (date ++ sep :: time) = (date, some time) := by
  rcases hsep with rfl | rfl
  · rw [splitTime, splitOnce_append (hdate.not_mem (.inl rfl))]
    rfl
  · have hnone : 'T' ∉ date ++ ' ' :: time := by
      simpa using ⟨hdate.not_mem (.inl rfl), htime.not_mem⟩
    rw [splitTime, splitOnce_none hnone,
      splitOnce_append (hdate.not_mem (.inr rfl))]
    rfl

theorem splitTime_eq {date : Chars} {time : Option Chars} (h : splitTime text = (date, time)) :
    time = none ∧ date = text ∨ ∃ sep rest, time = some rest ∧ (sep = 'T' ∨ sep = ' ') ∧
      text = date ++ sep :: rest := by
  rw [splitTime] at h
  split at h
  · rename_i front rest hsplit
    obtain ⟨rfl, rfl⟩ := Prod.mk.inj h
    rcases hT : splitOnce 'T' text with _ | r
    · rw [hT] at hsplit
      exact .inr ⟨' ', rest, rfl, .inr rfl, (splitOnce_eq_some.1 hsplit).1⟩
    · rw [hT] at hsplit
      obtain rfl : r = (front, rest) := Option.some.inj hsplit
      exact .inr ⟨'T', rest, rfl, .inl rfl, (splitOnce_eq_some.1 hT).1⟩
  · obtain ⟨rfl, rfl⟩ := Prod.mk.inj h
    exact .inl ⟨rfl, rfl⟩

theorem normalised_of_digits {s : Chars} (h : ∀ c ∈ s, c ≠ '/') : normalised s = s := by
  rw [normalised]
  conv_rhs => rw [← map_id s]
  exact map_congr_left fun c hc ↦ if_neg (h c hc)

/-- A text with a `-` is no number. -/
theorem not_isDigits_of_normalised {s : Chars} (h : '-' ∈ normalised s) :
    s ≠ [] ∧ isDigits s = false := by
  constructor
  · rintro rfl
    cases h
  · rw [Bool.eq_false_iff]
    intro hdigits
    have hdigit := (isDigits_iff.1 hdigits).2
    rw [normalised_of_digits fun c hc ↦ by rintro rfl; exact absurd (hdigit _ hc) (by decide)] at h
    exact absurd (hdigit _ h) (by decide)

/-! ## What is printed -/

/-- The text of a second of a day. -/
def unixText (d : Date) (second : ℕ) : Chars :=
  formatDate d.year d.month d.day ++ 'T' :: ([':'].intercalate
    [padded 2 (second / 3600 : ℕ), padded 2 (second % 3600 / 60 : ℕ), padded 2 (second % 60 : ℕ)] ++
      ['Z'])

/-- **An instant is printed as the date and the second of the day that it is.** -/
theorem formatUnix_eq {ts : ℤ} {d : Date} {second : ℕ} (hts : ts = d.number * 86400 + second)
    (hsecond : second < 86400) (hd : IsI64 d.number) : formatUnix ts = .ok (unixText d second) := by
  have hdays : ts / 86400 = d.number := by omega
  have hrem : ts % 86400 = second := by omega
  have hhour : (second : ℤ).tdiv 3600 = (second / 3600 : ℕ) := rfl
  have hmin : ((second : ℤ).tmod 3600).tdiv 60 = (second % 3600 / 60 : ℕ) := rfl
  have hsec : (second : ℤ).tmod 60 = (second % 60 : ℕ) := rfl
  rw [formatUnix]
  dsimp only
  rw [hdays, hrem, civilFromDays_number hd, hhour, hmin, hsec]
  rfl

theorem isDateText_formatDate {d : Date} (hpos : 0 ≤ d.year) (hle : d.year ≤ i32Max) :
    IsDateText (formatDate d.year d.month d.day) d := by
  obtain ⟨y, hy⟩ := Int.eq_ofNat_of_zero_le hpos
  have hmonth := d.isDate.month_le
  have hday := d.isDate.day_le.trans (monthLength_le _ _)
  refine ⟨padded 4 d.year, padded 2 d.month, padded 2 d.day, y, rfl, ?_, hy,
    isField_padded 2 hmonth, isField_padded 2 hday⟩
  rw [hy]
  exact isField_padded 4 (by omega)

theorem isTime_clock {second : ℕ} (h : second < 86400) :
    IsTime ([':'].intercalate [padded 2 (second / 3600 : ℕ), padded 2 (second % 3600 / 60 : ℕ),
      padded 2 (second % 60 : ℕ)] ++ ['Z'])
        (second / 3600, second % 3600 / 60, second % 60) 0 :=
  .utc ⟨_, _, _, _, rfl, rfl, isField_padded 2 (by omega), isField_padded 2 (by omega),
    .inl (isField_padded 2 (by omega))⟩

/-- The characters of what is printed. -/
theorem mem_padded {width : ℕ} (h : c ∈ padded width k) :
    c.isDigit = true ∨ c = '-' := by
  have hpadded {w : ℕ} (hc : c ∈ (Nat.toDigits 10 k.natAbs).leftpad w '0') : c.isDigit = true := by
    rw [← padded_natCast] at hc
    exact (isField_padded w le_rfl).digit c hc
  rw [padded] at h
  split at h
  · rcases mem_cons.1 h with rfl | h
    · exact .inr rfl
    · exact .inl (hpadded h)
  · exact .inl (hpadded h)

theorem mem_formatDate {year : ℤ} {month day : ℕ} (h : c ∈ formatDate year month day) :
    c.isDigit = true ∨ c = '-' := by
  rcases mem_of_mem_intercalate h with hc | ⟨field, hfield, hmem⟩
  · exact .inr (mem_singleton.1 hc)
  · simp only [mem_cons, not_mem_nil, or_false] at hfield
    rcases hfield with rfl | rfl | rfl <;> exact mem_padded hmem

theorem mem_unixText {d : Date} {second : ℕ} (h : c ∈ unixText d second) :
    c.isDigit = true ∨ c = '-' ∨ c = ':' ∨ c = 'T' ∨ c = 'Z' := by
  rw [unixText, mem_append, mem_cons, mem_append, mem_singleton] at h
  rcases h with h | rfl | h | rfl
  · exact (mem_formatDate h).imp_right .inl
  · simp
  · rcases mem_of_mem_intercalate h with hc | ⟨field, hfield, hmem⟩
    · exact .inr (.inr (.inl (mem_singleton.1 hc)))
    · simp only [mem_cons, not_mem_nil, or_false] at hfield
      have hdash : c.isDigit = true ∨ c = '-' := by
        rcases hfield with rfl | rfl | rfl <;> exact mem_padded hmem
      exact hdash.imp_right .inl
  · simp

/-- What is printed stands as it is. -/
theorem normalised_trim {s : Chars}
    (h : ∀ c ∈ s, c.isDigit = true ∨ c = '-' ∨ c = ':' ∨ c = 'T' ∨ c = 'Z') :
    normalised (trim s) = s := by
  have htrim : trim s = s := by
    refine Pieces.Trimmed.trim_eq (Pieces.Trimmed.of_all fun c hc ↦ ?_)
    rcases h c hc with hc | rfl | rfl | rfl | rfl
    · have hrange := toNat_of_isDigit hc
      simp [Text.isWhitespace]
      omega
    · rfl
    · rfl
    · rfl
    · rfl
  rw [htrim, normalised_of_digits fun c hc ↦ ?_]
  rintro rfl
  rcases h _ hc with hc | hc | hc | hc | hc <;> simp at hc

/-! ## What is read -/

variable {raw date time : Chars} {sep : Char} {d : Date} {clock : ℕ × ℕ × ℕ} {offset : ℤ}

theorem parse_of_number (h : isDigits (trim raw) = true) :
    (parseTimestampAndIso raw).run = (parseNumber (trim raw)).run := by
  rw [parseTimestampAndIso, run_guard_bind (isDigits_iff.1 h).1, if_pos h]

theorem parse_of_fields (hne : trim raw ≠ []) (h : isDigits (trim raw) = false) :
    (parseTimestampAndIso raw).run = (parseFields (normalised (trim raw))).run := by
  rw [parseTimestampAndIso, run_guard_bind hne, if_neg (by rw [h]; exact Bool.false_ne_true)]

/-- The seconds of a time and its offset. -/
def seconds (clock : ℕ × ℕ × ℕ) (offset : ℤ) : ℤ :=
  clock.1 * 3600 + clock.2.1 * 60 + clock.2.2 + offset

theorem IsTime.bounds (htime : IsTime time (h, m, s) offset) :
    (h ≤ 23 ∧ m ≤ 59 ∧ s ≤ 59) ∧ -86340 ≤ offset ∧ offset ≤ 86340 := by
  generalize hr : (h, m, s) = r at htime
  cases htime with
  | utc hclock | bare hclock =>
    cases hr
    exact ⟨hclock.bounds, by decide, by decide⟩
  | east hclock htail | west hclock htail =>
    cases hr
    have hle := htail.le
    exact ⟨hclock.bounds, by omega, by omega⟩

theorem IsDateText.year (h : IsDateText text d) : 0 ≤ d.year ∧ d.year ≤ i32Max := by
  obtain ⟨_, _, _, y, -, hy, hyear, -⟩ := h
  have hle := hy.le
  omega

theorem isI32_year (h : 0 ≤ d.year ∧ d.year ≤ i32Max) : IsI32 d.year := by
  have hmax : (i32Max : ℤ) = 2 ^ 31 - 1 := rfl
  exact ⟨by omega, by omega⟩

/-- The seconds of a date and a time, added up without an overflow. -/
theorem sum_eq {days : ℤ} (hbound : -10 ^ 12 ≤ days ∧ days ≤ 10 ^ 12)
    (hclock : h ≤ 23 ∧ m ≤ 59 ∧ s ≤ 59) (hoffset : -86340 ≤ offset ∧ offset ≤ 86340) :
    (do i64 ((← i64 ((← i64 ((← i64 ((← i64 (days * 86400)) + (← i64 ((h : ℤ) * 3600)))) +
      (← i64 ((m : ℤ) * 60)))) + s)) + offset) : Except Fault ℤ) =
      .ok (days * 86400 + seconds (h, m, s) offset) := by
  rw [i64_bind (by omega), i64_bind (by omega), i64_bind (by omega), i64_bind (by omega),
    i64_bind (by omega), i64_bind (by omega), i64, if_pos ⟨by omega, by omega⟩, seconds]
  exact congrArg Except.ok (by dsimp only; omega)

/-- The date of the instant that a date and a time name, and the second of that day. -/
theorem exists_instant (hk : IsI64 k) : ∃ (e : Date) (second : ℕ),
    k = e.number * 86400 + second ∧ second < 86400 ∧ IsI64 e.number := by
  obtain ⟨e, he⟩ := exists_date (k / 86400)
  obtain ⟨hlow, hhigh⟩ := hk
  have hrange : IsI64 e.number := by
    rw [he]
    exact ⟨by omega, by omega⟩
  exact ⟨e, (k % 86400).toNat, by omega, by omega, hrange⟩

/-- What a date, maybe with a time, is read as. -/
theorem parseFields_run {rest : Option Chars} {y : ℕ} {iso : Chars}
    (hsplit : splitTime text = (date, rest)) (hdate : parseDate date = some (y, d.month, d.day))
    (hyear : d.year = y) (hrange : IsI32 d.year)
    (htime : (rest.elim (pure ((0, 0, 0), 0)) parseTime : Read ((ℕ × ℕ × ℕ) × ℤ)).run =
      .ok (some (clock, offset)))
    (hclock : clock.1 ≤ 23 ∧ clock.2.1 ≤ 59 ∧ clock.2.2 ≤ 59)
    (hoffset : -86340 ≤ offset ∧ offset ≤ 86340)
    (hiso : (if rest.isSome then formatUnix (d.number * 86400 + seconds clock offset)
      else .ok (formatDate y d.month d.day)) = .ok iso) :
    (parseFields text).run = .ok (some (d.number * 86400 + seconds clock offset, iso)) := by
  obtain ⟨h, m, s⟩ := clock
  have hdays := (daysFromCivil_number hrange).1
  rw [hyear] at hdays
  have hts : (do
      let days ← daysFromCivil y d.month d.day
      i64 ((← i64 ((← i64 ((← i64 ((← i64 (days * 86400)) + (← i64 ((h : ℤ) * 3600)))) +
        (← i64 ((m : ℤ) * 60)))) + s)) + offset) : Except Fault ℤ) =
      .ok (d.number * 86400 + seconds (h, m, s) offset) := by
    rw [Except.bind_of_ok hdays]
    exact sum_eq (number_bound hrange) hclock hoffset
  rw [parseFields, hsplit]
  dsimp only
  rw [run_found_bind hdate]
  dsimp only
  rw [run_bind_some htime]
  dsimp only
  rw [run_attempt_bind hts, run_attempt_bind hiso]
  rfl

theorem parseDate_of_isDateText (h : IsDateText text d) :
    ∃ y : ℕ, d.year = y ∧ parseDate text = some (y, d.month, d.day) := by
  obtain ⟨y, hy⟩ := Int.eq_ofNat_of_zero_le h.year.1
  exact ⟨y, hy, parseDate_eq_some.2 ⟨d, h, hy, rfl, rfl⟩⟩

/-- A date is read as its first second, and printed again. -/
theorem parse_of_date (h : IsDateText (normalised (trim raw)) d) :
    (parseTimestampAndIso raw).run =
      .ok (some (d.number * 86400, formatDate d.year d.month d.day)) := by
  obtain ⟨hne, hdigits⟩ := not_isDigits_of_normalised h.chars.1
  obtain ⟨y, hy, hdate⟩ := parseDate_of_isDateText h
  have htime : ((none : Option Chars).elim (pure ((0, 0, 0), 0)) parseTime :
      Read ((ℕ × ℕ × ℕ) × ℤ)).run = .ok (some ((0, 0, 0), 0)) := rfl
  have hrun := parseFields_run (splitTime_of_date h) hdate hy (isI32_year h.year) htime
    (by decide) (by decide) rfl
  rw [parse_of_fields hne hdigits, hrun, hy]
  exact congrArg (fun ts ↦ Except.ok (some (ts, _))) (by rw [seconds]; simp)

/-- The bytes of a time are read as its seconds, and printed in UTC. -/
theorem parse_of_dateTime (htext : normalised (trim raw) = date ++ sep :: time)
    (hsep : sep = 'T' ∨ sep = ' ') (hdate : IsDateText date d) (htime : IsTime time (h, m, s) offset) :
    ∃ (e : Date) (second : ℕ),
      d.number * 86400 + seconds (h, m, s) offset = e.number * 86400 + second ∧ second < 86400 ∧
      IsI64 e.number ∧ (parseTimestampAndIso raw).run =
        .ok (some (d.number * 86400 + seconds (h, m, s) offset, unixText e second)) := by
  have hdash : '-' ∈ normalised (trim raw) := by
    rw [htext]
    exact mem_append_left _ hdate.chars.1
  obtain ⟨hne, hdigits⟩ := not_isDigits_of_normalised hdash
  obtain ⟨y, hy, hparse⟩ := parseDate_of_isDateText hdate
  obtain ⟨hclock, hoffset⟩ := htime.bounds
  have hrange := isI32_year hdate.year
  have hbound := number_bound hrange
  obtain ⟨e, second, hsum, hsecond, he⟩ :
      ∃ (e : Date) (second : ℕ), d.number * 86400 + seconds (h, m, s) offset =
        e.number * 86400 + second ∧ second < 86400 ∧ IsI64 e.number := by
    refine exists_instant ⟨?_, ?_⟩ <;> · rw [seconds]; dsimp only; omega
  obtain ⟨answer, hanswer, hall⟩ := parseTime_answers time
  have hread := (hall ((h, m, s), offset)).2 htime
  rw [hread] at hanswer
  refine ⟨e, second, hsum, hsecond, he, ?_⟩
  rw [parse_of_fields hne hdigits, htext]
  exact parseFields_run (splitTime_append hdate hsep htime) hparse hy hrange hanswer hclock hoffset
    (formatUnix_eq hsum hsecond he)

/-- What is printed of a date is read as that date. -/
theorem parse_formatDate (hyear : 0 ≤ d.year ∧ d.year ≤ i32Max) :
    (parseTimestampAndIso (formatDate d.year d.month d.day)).run =
      .ok (some (d.number * 86400, formatDate d.year d.month d.day)) := by
  refine parse_of_date ?_
  rw [normalised_trim fun c hc ↦ (mem_formatDate hc).imp_right .inl]
  exact isDateText_formatDate hyear.1 hyear.2

/-- **What is printed of an instant is read as it**, where its year can be. -/
theorem parse_unixText {second : ℕ} (hyear : 0 ≤ d.year ∧ d.year ≤ i32Max)
    (hsecond : second < 86400) : (parseTimestampAndIso (unixText d second)).run =
      .ok (some (d.number * 86400 + second, unixText d second)) := by
  have htext : normalised (trim (unixText d second)) = formatDate d.year d.month d.day ++ 'T' :: _ :=
    normalised_trim fun c hc ↦ mem_unixText hc
  obtain ⟨e, second', hsum, hsecond', he, hrun⟩ := parse_of_dateTime htext (.inl rfl)
    (isDateText_formatDate hyear.1 hyear.2) (isTime_clock hsecond)
  have hseconds : seconds (second / 3600, second % 3600 / 60, second % 60) 0 = second := by
    rw [seconds]
    dsimp only
    omega
  rw [hseconds] at hsum hrun
  obtain rfl : second' = second := by omega
  have hnumber : e.number = d.number := by omega
  obtain rfl := eq_of_number he hnumber
  exact hrun

/-- A date with a negative year, or one past the largest, is not read. -/
theorem parseDate_formatDate_none (hyear : ¬ (0 ≤ d.year ∧ d.year ≤ i32Max)) :
    parseDate (formatDate d.year d.month d.day) = none := by
  rcases hparse : parseDate (formatDate d.year d.month d.day) with _ | ⟨y, m, k⟩
  · rfl
  · exfalso
    obtain ⟨e, ⟨year, month, day, y', htext, hy, -, hm, hd⟩, -⟩ := parseDate_eq_some.1 hparse
    rcases lt_or_ge d.year 0 with hneg | hpos
    · rcases year with _ | ⟨c, year⟩
      · exact absurd hy.isDigits (by decide)
      · have hc := hy.digit c (.head _)
        rw [formatDate, padded, if_pos hneg, intercalate_cons_cons,
          intercalate_cons_cons] at htext
        obtain ⟨rfl, -⟩ := cons.inj htext
        simp at hc
    · obtain ⟨n, hn⟩ := Int.eq_ofNat_of_zero_le hpos
      rw [formatDate, hn] at htext
      have hparts := congrArg (splitOn '-') htext
      rw [splitOn_fields (by decide) (cons_ne_nil _ _),
        splitOn_fields (by decide) (cons_ne_nil _ _)] at hparts
      · obtain ⟨hfirst, -⟩ := cons.inj hparts
        have hvalue := hy.value_eq
        rw [← hfirst, (isField_padded 4 le_rfl).value_eq] at hvalue
        have hle := hy.le
        omega
      · simp only [forall_mem_cons]
        exact ⟨hy.digit, hm.digit, hd.digit, nofun⟩
      · simp only [forall_mem_cons]
        exact ⟨(isField_padded 4 le_rfl).digit, (isField_padded 2 le_rfl).digit,
          (isField_padded 2 le_rfl).digit, nofun⟩

theorem parse_unixText_none {second : ℕ} (hyear : ¬ (0 ≤ d.year ∧ d.year ≤ i32Max)) :
    (parseTimestampAndIso (unixText d second)).run = .ok none := by
  have htext : normalised (trim (unixText d second)) = unixText d second :=
    normalised_trim fun c hc ↦ mem_unixText hc
  have hdash : '-' ∈ unixText d second := by
    rw [unixText, formatDate, intercalate_cons_cons]
    simp
  obtain ⟨hne, hdigits⟩ := not_isDigits_of_normalised (htext.symm ▸ hdash)
  have hT : 'T' ∉ formatDate d.year d.month d.day := fun hmem ↦ by
    rcases mem_formatDate hmem with hc | hc <;> simp at hc
  rw [parse_of_fields hne hdigits, htext, parseFields, unixText, splitTime,
    splitOnce_append hT]
  dsimp only [Option.orElse_eq_orElse, Option.orElse_some]
  rw [parseDate_formatDate_none hyear]
  rfl

/-! ## Read again -/

/-- An instant and the text that is printed of it. -/
inductive Printed : ℤ × Chars → Prop
  | date (d : Date) (hyear : 0 ≤ d.year ∧ d.year ≤ i32Max) :
      Printed (d.number * 86400, formatDate d.year d.month d.day)
  | instant (d : Date) {second : ℕ} (hyear : 0 ≤ d.year ∧ d.year ≤ i32Max)
      (hsecond : second < 86400) : Printed (d.number * 86400 + second, unixText d second)

/-- **What is printed is read again.** -/
theorem Printed.parse {r : ℤ × Chars} (h : Printed r) :
    (parseTimestampAndIso r.2).run = .ok (some r) := by
  cases h with
  | date d hyear => exact parse_formatDate hyear
  | instant d hyear hsecond => exact parse_unixText hyear hsecond

/-- Instants whose year is far from the ends are printed. -/
theorem formatUnix_printed {ts : ℕ} (hhigh : ts < 10 ^ 16) :
    ∃ iso, formatUnix ts = .ok iso ∧ Printed (ts, iso) := by
  obtain ⟨d, second, hts, hsecond, hd⟩ := exists_instant (k := ts) ⟨by omega, by omega⟩
  have hmax : (i32Max : ℤ) = 2 ^ 31 - 1 := rfl
  have hyear : 0 ≤ d.year := year_nonneg (by omega)
  have hyear' : d.year < 2 ^ 31 := year_le (by omega)
  refine ⟨_, formatUnix_eq hts hsecond hd, ?_⟩
  rw [hts]
  exact .instant d ⟨hyear, by omega⟩ hsecond

theorem formatDate_first (year : ℤ) : padded 4 year ++ "-01-01".toList = formatDate year 1 1 := by
  have hone : padded 2 (1 : ℕ) = ['0', '1'] := by decide
  rw [formatDate, hone, intercalate_cons_cons, intercalate_cons_cons,
    intercalate_singleton, append_assoc]
  rfl

theorem parseNumber_printed (trimmed : Chars) : Safe Printed (parseNumber trimmed) := by
  rw [parseNumber]
  refine Safe.bind (P := fun n ↦ IsField i64Max trimmed n) (.found fun n ↦ digits_eq_some.1)
    fun n hn ↦ ?_
  have hle := hn.le
  have hlt : n < 2 ^ 63 := by rw [i64Max] at hle; omega
  split
  · -- milliseconds
    have hdiv : (n : ℤ).tdiv 1000 = (n / 1000 : ℕ) := rfl
    have hsmall : n / 1000 < 10 ^ 16 := by omega
    obtain ⟨iso, hiso, hprinted⟩ := formatUnix_printed hsmall
    rw [hdiv]
    exact .of_some (run_attempt_bind hiso _) hprinted
  · split
    · -- a year
      rename_i hlen
      obtain ⟨hnumber, hlength⟩ := isNumber_of_isDigits hn.isDigits
      have hvalue : n < 10 ^ 4 := by
        rw [← hn.value_eq, ← hlen, hlength]
        exact hnumber.lt
      have hyear : IsField i32Max trimmed n := ⟨hn.isDigits, hn.value_eq, by rw [i32Max]; omega⟩
      have hfirst : 0 ≤ (Date.first n).year ∧ (Date.first n).year ≤ i32Max :=
        ⟨Int.natCast_nonneg n, Int.ofNat_le.2 hyear.le⟩
      have hrange := isI32_year hfirst
      have hdays : daysFromCivil n 1 1 = .ok (Date.first n).number := (daysFromCivil_number hrange).1
      have hbound := number_bound hrange
      have hts : (do i64 ((← daysFromCivil n 1 1) * 86400) : Except Fault ℤ) =
          .ok ((Date.first n).number * 86400) := by
        rw [Except.bind_of_ok hdays, i64, if_pos ⟨by omega, by omega⟩]
      rw [digits_eq_some.2 hyear]
      refine .of_some (run_attempt_bind hts _) ?_
      rw [formatDate_first]
      exact .date (Date.first n) hfirst
    · -- seconds
      rename_i hshort hlen
      have hlength := (isNumber_of_isDigits hn.isDigits)
      have hsmall : n < 10 ^ 16 := by
        have hlt' := hlength.1.lt
        rw [hn.value_eq] at hlt'
        exact hlt'.trans_le (Nat.pow_le_pow_right (by decide) (by omega))
      obtain ⟨iso, hiso, hprinted⟩ := formatUnix_printed hsmall
      exact .of_some (run_attempt_bind hiso _) hprinted

/-- The year of the day after a date: the next one from the last of December on. -/
theorem next_year (d : Date) : d.next.year = d.year + (if d.month = 12 ∧ d.day = 31 then 1 else 0) ∧
    (d.next.month = 1 ∧ d.next.day = 1 ↔ d.month = 12 ∧ d.day = 31) := by
  obtain ⟨year, month, day, hpos, hle, hday, hday'⟩ := d
  have hlast : monthLength year 12 = 31 := by simp [monthLength]
  rw [Date.next]
  dsimp only
  by_cases hsame : day < monthLength year month
  · have hend : ¬ (month = 12 ∧ day = 31) := by
      rintro ⟨rfl, rfl⟩
      omega
    rw [dif_pos hsame, if_neg hend]
    exact ⟨(Int.add_zero _).symm, by dsimp only; omega⟩
  · by_cases hmonth : month < 12
    · rw [dif_neg hsame, dif_pos hmonth, if_neg (by omega)]
      exact ⟨(Int.add_zero _).symm, by dsimp only; omega⟩
    · obtain rfl : month = 12 := by omega
      have hend : 12 = 12 ∧ day = 31 := ⟨rfl, by omega⟩
      rw [dif_neg hsame, dif_neg hmonth, if_pos hend]
      exact ⟨rfl, iff_of_true ⟨rfl, rfl⟩ hend⟩

/-- The time takes the date out of the years that can be written. -/
def Leaves (d : Date) (seconds : ℤ) : Prop :=
  d.year = 0 ∧ d.month = 1 ∧ d.day = 1 ∧ seconds < 0 ∨
    d.year = i32Max ∧ d.month = 12 ∧ d.day = 31 ∧ 86400 ≤ seconds

/-- **When an offset changes the year.** -/
theorem year_in_range_iff {e : Date} {second : ℕ} (hd : 0 ≤ d.year ∧ d.year ≤ i32Max)
    (hk : -86400 ≤ k ∧ k < 2 * 86400) (hsum : d.number * 86400 + k = e.number * 86400 + second)
    (hsecond : second < 86400) (he : IsI64 e.number) :
    (0 ≤ e.year ∧ e.year ≤ i32Max) ↔ ¬ Leaves d k := by
  have hbound := number_bound (isI32_year hd)
  have hdate := d.isDate
  rw [Leaves]
  rcases lt_or_ge k 0 with hneg | hpos
  · -- the day before
    have hnumber : e.next.number = d.number := by
      rw [Date.number_next]
      omega
    obtain rfl := eq_of_number (hnumber ▸ ⟨by omega, by omega⟩) hnumber
    obtain ⟨hyear, hfirst⟩ := next_year e
    split at hyear <;> rename_i hend <;> rw [← hfirst] at hend <;> omega
  · rcases lt_or_ge k 86400 with hsame | hnext
    · -- the same day
      have hnumber : e.number = d.number := by omega
      obtain rfl := eq_of_number he hnumber
      omega
    · -- the day after
      have hnumber : e.number = d.next.number := by
        rw [Date.number_next]
        omega
      obtain rfl := eq_of_number he hnumber
      obtain ⟨hyear, -⟩ := next_year d
      split at hyear <;> omega

/-- An answer comes, and the text in it is read as the same answer. -/
def Stable (raw : Chars) : Prop :=
  ∃ answer, (parseTimestampAndIso raw).run = .ok answer ∧
    ∀ ts iso, answer = some (ts, iso) → (parseTimestampAndIso iso).run = .ok (some (ts, iso))

/-- The text is a date and a time whose offset leaves the years that can be written. -/
def CrossesEnd (raw : Chars) : Prop :=
  ∃ date sep time d clock offset, normalised (trim raw) = date ++ sep :: time ∧
    (sep = 'T' ∨ sep = ' ') ∧ IsDateText date d ∧ IsTime time clock offset ∧
    Leaves d (seconds clock offset)

/-- Whether an offset leaves the years, in a text that was taken apart. -/
theorem crossesEnd_iff (htext : normalised (trim raw) = date ++ sep :: time)
    (hsep : sep = 'T' ∨ sep = ' ') (hdate : IsDateText date d)
    (htime : IsTime time (h, m, s) offset) :
    CrossesEnd raw ↔ Leaves d (seconds (h, m, s) offset) := by
  refine ⟨?_, fun hleaves ↦ ⟨date, sep, time, d, (h, m, s), offset, htext, hsep, hdate, htime,
    hleaves⟩⟩
  rintro ⟨date', sep', time', d', ⟨h', m', s'⟩, offset', htext', hsep', hdate', htime', hleaves⟩
  have hsplit := splitTime_append hdate hsep htime
  rw [← htext, htext', splitTime_append hdate' hsep' htime', Prod.mk.injEq,
    Option.some.injEq] at hsplit
  obtain ⟨rfl, rfl⟩ := hsplit
  obtain rfl : d' = d := by
    obtain ⟨y, hy, hparse⟩ := parseDate_of_isDateText hdate
    obtain ⟨y', hy', hparse'⟩ := parseDate_of_isDateText hdate'
    rw [hparse, Option.some.injEq, Prod.mk.injEq, Prod.mk.injEq] at hparse'
    exact Date.ext (by omega) hparse'.2.1.symm hparse'.2.2.symm
  obtain ⟨answer, -, hall⟩ := parseTime_answers time'
  have hsame := ((hall ((h, m, s), offset)).2 htime).symm.trans
    ((hall ((h', m', s'), offset')).2 htime')
  rw [Option.some.injEq, Prod.mk.injEq] at hsame
  rw [hsame.1, hsame.2]
  exact hleaves

/-- A text that crosses the end has a date and a time. -/
theorem CrossesEnd.split (h : CrossesEnd raw) : (trim raw ≠ [] ∧ isDigits (trim raw) = false) ∧
    ∃ date time clock offset, splitTime (normalised (trim raw)) = (date, some time) ∧
      (∃ d, IsDateText date d) ∧ IsTime time clock offset := by
  obtain ⟨date, sep, time, d, clock, offset, htext, hsep, hdate, htime, -⟩ := h
  have hdash : '-' ∈ normalised (trim raw) := by
    rw [htext]
    exact mem_append_left _ hdate.chars.1
  refine ⟨not_isDigits_of_normalised hdash, date, time, clock, offset, ?_, ⟨d, hdate⟩, htime⟩
  rw [htext, splitTime_append hdate hsep htime]

/-- **Every text is refused, or read as what is printed of it again, or crosses the end.**  No
operation overflows. -/
theorem parse_cases (raw : Chars) :
    (parseTimestampAndIso raw).run = .ok none ∧ ¬ CrossesEnd raw ∨
    (∃ r, (parseTimestampAndIso raw).run = .ok (some r) ∧ Printed r ∧ ¬ CrossesEnd raw) ∨
    ∃ ts e second, (parseTimestampAndIso raw).run = .ok (some (ts, unixText e second)) ∧
      (-10 ^ 17 ≤ ts ∧ ts ≤ 10 ^ 17) ∧ ¬ (0 ≤ e.year ∧ e.year ≤ i32Max) ∧ CrossesEnd raw := by
  by_cases hne : trim raw = []
  · refine .inl ⟨?_, fun h ↦ h.split.1.1 hne⟩
    rw [parseTimestampAndIso]
    exact run_guard_neg (not_not_intro hne) _
  rcases hdigits : isDigits (trim raw)
  swap
  · have hnot : ¬ CrossesEnd raw := fun h ↦ absurd (h.split.1.2.symm.trans hdigits) (by decide)
    obtain ⟨answer, hrun, hprinted⟩ := parseNumber_printed (trim raw)
    rw [← parse_of_number hdigits] at hrun
    rcases answer with _ | r
    · exact .inl ⟨hrun, hnot⟩
    · exact .inr (.inl ⟨r, hrun, hprinted r rfl, hnot⟩)
  -- the fields, one after the other
  have hrun := parse_of_fields hne hdigits
  rcases hsplit : splitTime (normalised (trim raw)) with ⟨date, rest⟩
  rw [parseFields, hsplit] at hrun
  dsimp only at hrun
  rcases hparse : parseDate date with _ | ⟨y, m, k⟩
  · rw [hparse] at hrun
    refine .inl ⟨hrun, fun h ↦ ?_⟩
    obtain ⟨-, date', time, clock, offset, hsplit', ⟨d, hdate⟩, -⟩ := h.split
    obtain ⟨rfl, -⟩ := Prod.mk.inj (hsplit.symm.trans hsplit')
    obtain ⟨y, -, hparse'⟩ := parseDate_of_isDateText hdate
    exact absurd (hparse.symm.trans hparse') (Option.some_ne_none _).symm
  obtain ⟨d, hdate, -⟩ := parseDate_eq_some.1 hparse
  rcases splitTime_eq hsplit with ⟨rfl, rfl⟩ | ⟨sep, time, rfl, hsep, htext⟩
  · refine .inr (.inl ⟨_, parse_of_date hdate, .date d hdate.year, fun h ↦ ?_⟩)
    obtain ⟨-, date', time, clock, offset, hsplit', -⟩ := h.split
    simp [hsplit] at hsplit'
  obtain ⟨answer, htime, hall⟩ := parseTime_answers time
  rcases answer with _ | ⟨⟨h, m, s⟩, offset⟩
  · rw [hparse, run_found_bind rfl] at hrun
    dsimp only at hrun
    rw [Option.elim_some, run_bind_none htime] at hrun
    refine .inl ⟨hrun, fun h ↦ ?_⟩
    obtain ⟨-, date', time', clock, offset, hsplit', -, htime'⟩ := h.split
    obtain ⟨rfl, rfl⟩ : date = date' ∧ time = time' := by simpa [hsplit] using hsplit'
    exact absurd ((hall (clock, offset)).2 htime') (Option.some_ne_none _).symm
  · have hread := (hall ((h, m, s), offset)).1 rfl
    obtain ⟨e, second, hsum, hsecond, he, hrun'⟩ := parse_of_dateTime htext hsep hdate hread
    obtain ⟨hclock, hoffset⟩ := hread.bounds
    have hrange := year_in_range_iff hdate.year (by rw [seconds]; dsimp only; omega) hsum hsecond he
    rw [crossesEnd_iff htext hsep hdate hread]
    by_cases hyear : 0 ≤ e.year ∧ e.year ≤ i32Max
    · refine .inr (.inl ⟨_, hrun', ?_, hrange.1 hyear⟩)
      rw [hsum]
      exact .instant e hyear hsecond
    · have hbound := number_bound (isI32_year hdate.year)
      refine .inr (.inr ⟨_, e, second, hrun', ?_, hyear, not_not.1 fun h ↦ hyear (hrange.2 h)⟩)
      rw [seconds]
      dsimp only
      omega

/-- An instant is never near the ends of an `i64`, and no operation overflows. -/
theorem parse_bounded (raw : Chars) :
    Safe (fun r ↦ -10 ^ 17 ≤ r.1 ∧ r.1 ≤ 10 ^ 17) (parseTimestampAndIso raw) := by
  rcases parse_cases raw with ⟨hrun, -⟩ | ⟨r, hrun, hr, -⟩ | ⟨ts, e, second, hrun, hbound, -⟩
  · exact ⟨none, hrun, fun _ h ↦ absurd h.symm (Option.some_ne_none _)⟩
  · refine ⟨some r, hrun, fun _ heq ↦ ?_⟩
    cases heq
    cases hr with
    | date d hyear | instant d hyear _ =>
      have hnumber := number_bound (isI32_year hyear)
      dsimp only
      omega
  · refine ⟨_, hrun, fun _ heq ↦ ?_⟩
    cases heq
    exact hbound

/-- **A timestamp's canonical text is read as the instant it was given for**, and no operation
overflows, but for an offset that leaves the years that can be written. -/
theorem parseTimestampAndIso_stable_iff (raw : Chars) : Stable raw ↔ ¬ CrossesEnd raw := by
  rcases parse_cases raw with ⟨hrun, hnot⟩ | ⟨r, hrun, hr, hnot⟩ |
    ⟨ts, e, second, hrun, -, hyear, hcross⟩
  · exact iff_of_true ⟨none, hrun, fun _ _ heq ↦ absurd heq.symm (Option.some_ne_none _)⟩ hnot
  · refine iff_of_true ⟨some r, hrun, fun ts iso heq ↦ ?_⟩ hnot
    cases heq
    exact hr.parse
  · refine iff_of_false ?_ (not_not_intro hcross)
    rintro ⟨answer, hanswer, hstable⟩
    obtain rfl := Except.ok.inj (hanswer.symm.trans hrun)
    have hagain := hstable _ _ rfl
    rw [parse_unixText_none hyear] at hagain
    cases hagain

/-- One hour before the first year is the year -1, which is printed but not read. -/
theorem not_stable_year_zero : ¬ Stable "0000-01-01T00:00:00+01:00".toList := by
  have hrun : (parseTimestampAndIso "0000-01-01T00:00:00+01:00".toList).run =
      .ok (some (-62167222800, "-001-12-31T23:00:00Z".toList)) := by decide +kernel
  have hagain : (parseTimestampAndIso "-001-12-31T23:00:00Z".toList).run = .ok none := by
    decide +kernel
  rintro ⟨answer, hanswer, hstable⟩
  obtain rfl := Except.ok.inj (hanswer.symm.trans hrun)
  have hsame := hstable _ _ rfl
  rw [hagain] at hsame
  cases hsame

end Huntsman.TimeFmt
