import Huntsman.TimeFmt.Digits

/-!
# Dates in HTTP

`parseHttpDate` reads a date in one of the three forms that HTTP has.  A text is first cut into its
fields (`Cut`), and the form says where the year is among them and how it is written.
-/

set_option autoImplicit false

namespace Huntsman.TimeFmt

open Calendar List Reading

/-! ## The source's functions -/

/-- `char::is_ascii_whitespace`. -/
def isAsciiWhitespace (c : Char) : Bool :=
  c == ' ' || c == '\t' || c == '\n' || c == '\x0C' || c == '\r'

/-- `str::split_once` at a character of a kind. -/
def splitOnceAt (p : Char → Bool) : Chars → Option (Chars × Chars)
  | [] => none
  | c :: s => if p c then some ([], s) else (splitOnceAt p s).map fun r ↦ (c :: r.1, r.2)

/-- `str::parse::<i32>`: a sign may stand before the digits. -/
def parseI32 : Chars → Option ℤ
  | '-' :: field => if isDigits field then toI32 (-value field) else none
  | '+' :: field => if isDigits field then toI32 (value field) else none
  | field => if isDigits field then toI32 (value field) else none

/-- The result of an operation on `i32`s. -/
def i32 (n : ℤ) : Except Fault ℤ := if IsI32 n then .ok n else .error .overflow

/-- `raw.as_bytes()[i]`. -/
def byteAt (raw : Chars) (i : ℕ) : Read UInt8 :=
  match (Utf8.encode raw)[i]? with
  | some b => pure b
  | none => stop .outOfBounds

def gmt : Chars := "GMT".toList

def monthNames : List Chars :=
  ["Jan", "Feb", "Mar", "Apr", "May", "Jun", "Jul", "Aug", "Sep", "Oct", "Nov", "Dec"].map
    String.toList

/-- The year that two digits stand for. -/
def fullYear (yy : ℤ) (nowUnix : ℕ) : Read ℤ := do
  let nowDays ← found (toI64 (nowUnix / 86400))
  let nowYear ← found (toI32 (← attempt (civilFromDays nowDays)).1)
  let year ← attempt (i32 ((← attempt (i32 (nowYear - nowYear % 100))) + yy))
  if (← attempt (i32 (nowYear + 50))) < year then attempt (i32 (year - 100)) else pure year

/-- The year and the texts of the month, the day and the clock, by what `match` finds. -/
def dateFields (raw weekday : Chars) (nowUnix : ℕ) :
    List Chars → Read (ℤ × Chars × Chars × Chars)
  | [day, month, year, clock, zone] => do
    guard (zone = gmt)
    guard ((← byteAt raw 3) = ','.toUInt8 ∧ len year = 4)
    return (← found (parseI32 year), month, day, clock)
  | [date, clock, zone] => do
    guard (zone = gmt ∧ (Utf8.encode raw)[len weekday]? = some ','.toUInt8)
    match date.splitOn '-' with
    | [day, month, yy] =>
      guard (len yy = 2)
      let yy ← found (parseI32 yy)
      return (← fullYear yy nowUnix, month, day, clock)
    | _ => failure
  | [month, day, clock, year] => do
    guard ((← byteAt raw 3) = ' '.toUInt8 ∧ len year = 4)
    return (← found (parseI32 year), month, day, clock)
  | _ => failure

/-- Two digits of the clock, up to a limit. -/
def clockField (max : ℕ) (text : Chars) : Option ℕ := do
  guard (len text = 2 ∧ text.all Char.isDigit)
  guard (value text ≤ max)
  return value text

def clockFields (clock : Chars) : Option (ℕ × ℕ × ℕ) :=
  match clock.splitOn ':' with
  | [hour, minute, second] => do
    return (← clockField 23 hour, ← clockField 59 minute, ← clockField 60 second)
  | _ => none

/-- The instant that a year and the other fields name, if there is one. -/
def instantOf (year : ℤ) (month day clock : Chars) : Read ℤ := do
  let month ← found ((monthNames.findIdx? (· = month)).map (· + 1))
  guard (day ≠ [] ∧ len day ≤ 2 ∧ day.all Char.isDigit)
  let day := value day
  let (hour, minute, second) ← found (clockFields clock)
  let days ← attempt (daysFromCivil year month day)
  guard ((← attempt (civilFromDays days)) = (year, month, day))
  attempt do
    i64 ((← i64 ((← i64 ((← i64 (days * 86400)) + (← i64 (hour * 3600)))) +
      (← i64 (minute * 60)))) + second)

def parseHttpDate (raw : Chars) (nowUnix : ℕ) : Read ℤ := do
  let raw := trim raw
  let (weekday, rest) ← found (splitOnceAt (fun c ↦ c == ',' || c == ' ') raw)
  guard (3 ≤ len weekday ∧ weekday.all Char.isAlpha)
  let (year, month, day, clock) ←
    dateFields raw weekday nowUnix (Pieces.words isAsciiWhitespace rest)
  instantOf year month day clock

/-! ## The three forms -/

inductive Form where
  | imf
  | rfc850
  | asctime
deriving DecidableEq

/-- How many characters write the year. -/
def Form.width : Form → ℕ
  | .rfc850 => 2
  | .imf | .asctime => 4

/-- A text that begins with a weekday, and what comes after it. -/
structure Begins (raw weekday : Chars) (sep : Char) (rest : Chars) : Prop where
  eq : trim raw = weekday ++ sep :: rest
  isAlpha : ∀ c ∈ weekday, c.isAlpha = true
  length : 3 ≤ weekday.length
  sep : sep = ',' ∨ sep = ' '

/-- The year, the month, the day and the clock of a text in one of the forms.  Blanks may stand
around the fields. -/
inductive Cut (raw : Chars) : Form → Chars → Chars → Chars → Chars → Prop
  | imf {weekday rest year month day clock : Chars} (begins : Begins raw weekday ',' rest)
      (short : weekday.length = 3)
      (fields : Pieces.words isAsciiWhitespace rest = [day, month, year, clock, gmt]) :
      Cut raw .imf year month day clock
  | rfc850 {weekday rest year month day clock : Chars} (begins : Begins raw weekday ',' rest)
      (fields : Pieces.words isAsciiWhitespace rest =
        [['-'].intercalate [day, month, year], clock, gmt])
      (plain : ∀ field ∈ [day, month, year], '-' ∉ field) :
      Cut raw .rfc850 year month day clock
  | asctime {weekday rest year month day clock : Chars} (begins : Begins raw weekday ' ' rest)
      (short : weekday.length = 3)
      (fields : Pieces.words isAsciiWhitespace rest = [month, day, clock, year]) :
      Cut raw .asctime year month day clock

variable {c : Char} {i h s : ℕ} {k : ℤ}

theorem toNat_of_isAlpha (h : c.isAlpha = true) : 65 ≤ c.toNat ∧ c.toNat < 123 := by
  rcases Bool.or_eq_true_iff.1 h with h | h
  · have hbounds : 65 ≤ c.toNat ∧ c.toNat ≤ 90 := of_decide_eq_true h
    omega
  · have hbounds : (decide (97 ≤ c.toNat) && decide (c.toNat ≤ 122)) = true := h
    rw [Bool.and_eq_true, decide_eq_true_eq, decide_eq_true_eq] at hbounds
    omega

variable {raw weekday rest : Chars} {sep : Char} {form : Form} {year month day clock : Chars}
  {nowUnix : ℕ}

theorem splitOnceAt_append {p : Char → Bool} {s : Chars} (h : ∀ a ∈ s, p a = false)
    (hc : p c = true) (t : Chars) : splitOnceAt p (s ++ c :: t) = some (s, t) := by
  induction s with
  | nil => rw [nil_append, splitOnceAt, if_pos hc]
  | cons a s ih =>
    rw [forall_mem_cons] at h
    rw [cons_append, splitOnceAt, if_neg (by rw [h.1]; exact Bool.false_ne_true), ih h.2]
    rfl

theorem Begins.ne_sep (h : Begins raw weekday sep rest) :
    ∀ a ∈ weekday, (a == ',' || a == ' ') = false := by
  intro a ha
  have halpha := toNat_of_isAlpha (h.isAlpha a ha)
  rw [Bool.or_eq_false_iff, beq_eq_false_iff_ne, beq_eq_false_iff_ne]
  constructor <;> · rintro rfl; simp at halpha

theorem Begins.splitOnceAt (h : Begins raw weekday sep rest) :
    splitOnceAt (fun c ↦ c == ',' || c == ' ') (trim raw) = some (weekday, rest) := by
  rw [h.eq]
  exact splitOnceAt_append h.ne_sep (by rcases h.sep with rfl | rfl <;> rfl) rest

theorem Begins.unique (h : Begins raw weekday sep rest) {weekday' rest' : Chars} {sep' : Char}
    (h' : Begins raw weekday' sep' rest') : weekday = weekday' ∧ sep = sep' ∧ rest = rest' := by
  obtain ⟨rfl, rfl⟩ := Prod.mk.inj (Option.some.inj (h.splitOnceAt.symm.trans h'.splitOnceAt))
  have heq := append_cancel_left (h.eq.symm.trans h'.eq)
  exact ⟨rfl, (cons.inj heq).1, rfl⟩

theorem Begins.lt (h : Begins raw weekday sep rest) : ∀ c ∈ weekday ++ [sep], c.toNat < 128 := by
  intro c hc
  rcases mem_append.1 hc with hc | hc
  · exact (toNat_of_isAlpha (h.isAlpha c hc)).2.trans (by decide)
  · rw [mem_singleton.1 hc]
    rcases h.sep with rfl | rfl <;> decide

/-- The bytes of a weekday and of what comes after it. -/
theorem Begins.byte (h : Begins raw weekday sep rest) (hi : i ≤ weekday.length) :
    (Utf8.encode (trim raw))[i]? = (weekday ++ [sep])[i]?.map Char.toUInt8 := by
  rw [h.eq, ← singleton_append, ← append_assoc, Utf8.encode_append,
    Utf8.encode_of_ascii h.lt, getElem?_append_left, getElem?_map]
  rw [length_map, length_append, length_singleton]
  exact Nat.lt_succ_of_le hi

theorem Cut.unique (h : Cut raw form year month day clock) {form' : Form}
    {year' month' day' clock' : Chars} (h' : Cut raw form' year' month' day' clock') :
    form = form' ∧ year = year' ∧ month = month' ∧ day = day' ∧ clock = clock' := by
  cases h with
  | imf begins _ fields =>
    cases h' with
    | imf begins' _ fields' =>
      obtain ⟨rfl, -, rfl⟩ := begins.unique begins'
      simpa [and_comm, and_left_comm] using fields.symm.trans fields'
    | rfc850 begins' fields' _ =>
      obtain ⟨rfl, -, rfl⟩ := begins.unique begins'
      simpa using fields.symm.trans fields'
    | asctime begins' _ fields' =>
      obtain ⟨rfl, -, rfl⟩ := begins.unique begins'
      simpa using fields.symm.trans fields'
  | rfc850 begins fields plain =>
    cases h' with
    | imf begins' _ fields' =>
      obtain ⟨rfl, -, rfl⟩ := begins.unique begins'
      simpa using fields.symm.trans fields'
    | rfc850 begins' fields' plain' =>
      obtain ⟨rfl, -, rfl⟩ := begins.unique begins'
      obtain ⟨hdate, hrest⟩ := cons.inj (fields.symm.trans fields')
      have hparts := splitOn_intercalate '-' plain (cons_ne_nil _ _)
      rw [hdate, splitOn_intercalate '-' plain' (cons_ne_nil _ _)] at hparts
      simp_all
    | asctime begins' _ fields' =>
      obtain ⟨rfl, -, rfl⟩ := begins.unique begins'
      simpa using fields.symm.trans fields'
  | asctime begins _ fields =>
    cases h' with
    | imf begins' _ fields' =>
      obtain ⟨rfl, -, rfl⟩ := begins.unique begins'
      simpa using fields.symm.trans fields'
    | rfc850 begins' fields' _ =>
      obtain ⟨rfl, -, rfl⟩ := begins.unique begins'
      simpa using fields.symm.trans fields'
    | asctime begins' _ fields' =>
      obtain ⟨rfl, -, rfl⟩ := begins.unique begins'
      simpa [and_comm, and_left_comm] using fields.symm.trans fields'

/-! ## The year -/

/-- A sign, then `n` digits. -/
inductive Signed (n : ℕ) : Chars → ℤ → Prop
  | plus {digits : Chars} {v : ℕ} (h : IsNumber n digits v) : Signed n ('+' :: digits) v
  | minus {digits : Chars} {v : ℕ} (h : IsNumber n digits v) : Signed n ('-' :: digits) (-v)

/-- The text is digits, or a sign and one digit less. -/
def Reads (n : ℕ) (text : Chars) (m : ℤ) : Prop :=
  (∃ v : ℕ, IsNumber (n + 1) text v ∧ m = v) ∨ Signed n text m

variable {n : ℕ} {text : Chars} {m : ℤ}

theorem Signed.unique (h : Signed n text m) (h' : Signed n text k) : m = k := by
  cases h with
  | plus h =>
    cases h' with
    | plus h' => rw [h.unique h']
  | minus h =>
    cases h' with
    | minus h' => rw [h.unique h']

/-- The day on which the time is now. -/
noncomputable def today (nowUnix : ℕ) : Date := (exists_date (nowUnix / 86400)).choose

/-- The year in the century of another that ends in two digits, or the one before when that is more
than 50 years ahead. -/
def inCentury (thisYear yy : ℤ) : ℤ :=
  let year := thisYear - thisYear % 100 + yy
  if thisYear + 50 < year then year - 100 else year

/-- The year that a number in a text stands for. -/
noncomputable def yearOf (nowUnix : ℕ) : Form → ℤ → ℤ
  | .rfc850, yy => inCentury (today nowUnix).year yy
  | .imf, year | .asctime, year => year

/-- Two digits of the clock, up to a limit. -/
structure IsClockField (max : ℕ) (text : Chars) (v : ℕ) : Prop where
  isNumber : IsNumber 2 text v
  le : v ≤ max

/-- The instant that a year and the texts of the month, the day and the clock name. -/
def Names (year : ℤ) (month day clock : Chars) (instant : ℤ) : Prop :=
  ∃ d : Date, d.year = year ∧ monthNames[d.month - 1]? = some month ∧
    (IsNumber 1 day d.day ∨ IsNumber 2 day d.day) ∧
    ∃ hour minute second h m s, clock = [':'].intercalate [hour, minute, second] ∧
      IsClockField 23 hour h ∧ IsClockField 59 minute m ∧ IsClockField 60 second s ∧
      instant = d.number * 86400 + h * 3600 + m * 60 + s

/-- The text is a date in one of the forms, and this is its instant. -/
def IsHttpDate (raw : Chars) (nowUnix : ℕ) (instant : ℤ) : Prop :=
  ∃ form year month day clock, Cut raw form year month day clock ∧
    ∃ v : ℕ, IsNumber form.width year v ∧ Names (yearOf nowUnix form v) month day clock instant

/-- An answer comes, and it is the instant of a date. -/
def Correct (raw : Chars) (nowUnix : ℕ) : Prop :=
  ∃ answer, (parseHttpDate raw nowUnix).run = .ok answer ∧
    ∀ instant, answer = some instant → IsHttpDate raw nowUnix instant

theorem Form.width_eq (form : Form) : 0 < form.width - 1 ∧ form.width - 1 + 1 = form.width ∧
    form.width - 1 + 1 ≤ 9 := by
  cases form <;> decide

theorem Reads.bound (h : Reads n text m) : -10 ^ n < m ∧ m < 10 ^ (n + 1) := by
  have hpow : (10 : ℤ) ^ n < 10 ^ (n + 1) := pow_lt_pow_right₀ (by decide) n.lt_succ_self
  have hpos : (0 : ℤ) < 10 ^ n := pow_pos (by decide) n
  rcases h with ⟨v, h, rfl⟩ | h
  · have hlt : (v : ℤ) < 10 ^ (n + 1) := mod_cast h.lt
    omega
  · cases h with
    | plus h =>
      have hlt := (Nat.cast_lt (α := ℤ)).2 h.lt
      push_cast at hlt
      omega
    | minus h =>
      have hlt := (Nat.cast_lt (α := ℤ)).2 h.lt
      push_cast at hlt
      omega

end Huntsman.TimeFmt
