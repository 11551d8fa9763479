import Mathlib.Data.List.TakeWhile
import Huntsman.ScanLog.Kept

/-!
# The JSON of a log entry

The compact JSON that an entry is written as: its four members in order, text escaped where JSON
requires it, and the reading of such a line.  It is lawful (`Serde.lawful`), so that what `log_kept`
says of every lawful form is said of it; and with it there is a run in which every write succeeds
and the overflow log starts without a marker (`marker_missing`).
-/

set_option autoImplicit false

namespace Huntsman.ScanLog.Serde

open List

/-! ## Text -/

def hexDigit (n : ℕ) : Char := Char.ofNat (if n < 10 then 48 + n else 87 + n)

def hexValue (c : Char) : ℕ := if c.toNat < 58 then c.toNat - 48 else c.toNat - 87

/-- The letter after the backslash of an escape, and the character it stands for. -/
def escapes : List (Char × Char) :=
  [('"', '"'), ('\\', '\\'), ('n', '\n'), ('r', '\r'), ('t', '\t'), ('b', Char.ofNat 8),
    ('f', Char.ofNat 12)]

def escapeChar (c : Char) : List Char :=
  match escapes.find? fun p ↦ p.2 == c with
  | some p => ['\\', p.1]
  | none =>
    if c.toNat < 32 then ['\\', 'u', '0', '0', hexDigit (c.toNat / 16), hexDigit (c.toNat % 16)]
    else [c]

/-- The rest of a text after its opening quote, and what follows the closing one. -/
def readText : List Char → Option (List Char × List Char)
  | [] => none
  | '"' :: rest => some ([], rest)
  | '\\' :: 'u' :: '0' :: '0' :: h :: l :: rest =>
    (readText rest).map fun r ↦ (Char.ofNat (16 * hexValue h + hexValue l) :: r.1, r.2)
  | '\\' :: c :: rest =>
    match escapes.find? fun p ↦ p.1 == c with
    | some p => (readText rest).map fun r ↦ (p.2 :: r.1, r.2)
    | none => none
  | c :: rest => (readText rest).map fun r ↦ (c :: r.1, r.2)

theorem readText_escape (c : Char) (rest : List Char) :
    readText (escapeChar c ++ rest) = (readText rest).map fun r ↦ (c :: r.1, r.2) := by
  by_cases hmem : ∃ p ∈ escapes, p.2 = c
  · obtain ⟨p, hp, rfl⟩ := hmem
    simp only [escapes, mem_cons, not_mem_nil, or_false] at hp
    rcases hp with rfl | rfl | rfl | rfl | rfl | rfl | rfl <;> rfl
  · have hnone : escapes.find? (fun p ↦ p.2 == c) = none := by
      rw [find?_eq_none]
      intro p hp
      rw [beq_iff_eq]
      exact fun heq ↦ hmem ⟨p, hp, heq⟩
    rw [escapeChar, hnone]
    simp only
    split
    · rename_i hlow
      have hback : 16 * hexValue (hexDigit (c.toNat / 16)) + hexValue (hexDigit (c.toNat % 16)) =
          c.toNat := by
        have hall : ∀ n < 32, 16 * hexValue (hexDigit (n / 16)) + hexValue (hexDigit (n % 16)) = n := by
          decide
        exact hall _ hlow
      rw [cons_append, cons_append, cons_append, cons_append, cons_append,
        cons_append, nil_append, readText, hback, Char.ofNat_toNat]
    · rename_i hhigh
      have hquote : c ≠ '"' := fun heq ↦ hmem ⟨('"', '"'), by decide, heq.symm⟩
      have hslash : c ≠ '\\' := fun heq ↦ hmem ⟨('\\', '\\'), by decide, heq.symm⟩
      rw [singleton_append, readText.eq_5 c rest hquote]
      · intro _ _ _ heq
        exact absurd heq hslash
      · intro _ _ heq
        exact absurd heq hslash

/-- A text without its opening quote. -/
def quoted (s : String) : List Char := s.toList.flatMap escapeChar ++ ['"']

theorem readText_quoted (s : String) (rest : List Char) :
    readText (quoted s ++ rest) = some (s.toList, rest) := by
  rw [quoted, append_assoc]
  induction s.toList with
  | nil => rfl
  | cons c chars ih =>
    rw [flatMap_cons, append_assoc, readText_escape, ih]
    rfl

/-! ## Entries -/

def levelName : LogLevel → List Char
  | .info => ['I', 'N', 'F', 'O']
  | .warning => ['W', 'A', 'R', 'N', 'I', 'N', 'G']
  | .error => ['E', 'R', 'R', 'O', 'R']

def timeKey : List Char := ['{', '"', 't', 'i', 'm', 'e', '"', ':']

def componentKey : List Char :=
  [',', '"', 'c', 'o', 'm', 'p', 'o', 'n', 'e', 'n', 't', '"', ':', '"']

def levelKey : List Char := [',', '"', 'l', 'e', 'v', 'e', 'l', '"', ':', '"']

def messageKey : List Char :=
  [',', '"', 'm', 'e', 's', 's', 'a', 'g', 'e', '"', ':', '"']

def encodeChars (e : LogEntry) : List Char :=
  timeKey ++ (Nat.toDigits 10 e.time.toNat ++ (componentKey ++ (quoted e.component ++
    (levelKey ++ (levelName e.level ++ ('"' :: messageKey ++ (quoted e.message ++ ['}'])))))))

/-- The rest of a text that starts with `start`. -/
def expect (start chars : List Char) : Option (List Char) := start.isPrefixOf? chars

def readLevel (chars : List Char) : Option LogLevel :=
  [LogLevel.info, .warning, .error].find? fun level ↦ levelName level == chars

def decodeChars (chars : List Char) : Option LogEntry := do
  let rest ← expect timeKey chars
  let time := Nat.ofDigitChars 10 (rest.takeWhile Char.isDigit) 0
  let rest ← expect componentKey (rest.dropWhile Char.isDigit)
  let component ← readText rest
  let rest ← expect levelKey component.2
  let level ← readText rest
  let name ← readLevel level.1
  let rest ← expect messageKey level.2
  let message ← readText rest
  if message.2 = ['}'] then
    some ⟨UInt64.ofNat time, String.ofList component.1, name, String.ofList message.1⟩
  else none

theorem expect_append (start rest : List Char) : expect start (start ++ rest) = some rest := by
  induction start with
  | nil => rfl
  | cons c start ih =>
    rw [cons_append, expect, isPrefixOf?, if_pos (by simp)]
    exact ih

theorem readText_level (level : LogLevel) (rest : List Char) :
    readText (levelName level ++ '"' :: rest) = some (levelName level, rest) := by
  cases level <;> rfl

theorem readLevel_name (level : LogLevel) : readLevel (levelName level) = some level := by
  cases level <;> rfl

theorem span_digits (n : ℕ) (rest : List Char) :
    ((Nat.toDigits 10 n ++ (componentKey ++ rest)).takeWhile Char.isDigit = Nat.toDigits 10 n) ∧
      (Nat.toDigits 10 n ++ (componentKey ++ rest)).dropWhile Char.isDigit =
        componentKey ++ rest := by
  have hdigits : ∀ c ∈ Nat.toDigits 10 n, c.isDigit = true :=
    fun c hc ↦ Nat.isDigit_of_mem_toDigits (by decide) (by decide) hc
  constructor
  · rw [takeWhile_append_of_pos hdigits]
    simp [componentKey]
  · rw [dropWhile_append_of_pos hdigits]
    simp [componentKey]

theorem decode_encode (e : LogEntry) : decodeChars (encodeChars e) = some e := by
  obtain ⟨time, component, level, message⟩ := e
  have htime : UInt64.ofNat time.toNat = time := UInt64.ofNat_toNat
  simp only [decodeChars, encodeChars, expect_append, Option.bind_eq_bind, Option.bind_some,
    span_digits, readText_quoted, readText_level, readLevel_name, cons_append,
    Nat.ofDigitChars_ten_toDigits, htime, String.ofList_toList, if_true]

/-- The JSON of entries. -/
def json : Json where
  encode e := String.ofList (encodeChars e)
  fromStr s :=
    match decodeChars s.toList with
    | some e => .ok e
    | none => .error "expected value"
  fromSlice bytes := decodeChars (Text.fromUtf8Lossy bytes).toList

theorem toList_encode (e : LogEntry) : (json.encode e).toList = encodeChars e :=
  String.toList_ofList

/-- A character that is no line break. -/
abbrev Plain (c : Char) : Prop := c ≠ '\n' ∧ c ≠ '\r'

theorem plain_of_all {chars : List Char} (h : (chars.all fun c ↦ decide (Plain c)) = true) :
    ∀ c ∈ chars, Plain c := fun c hc ↦ of_decide_eq_true (all_eq_true.1 h c hc)

theorem escapeChar_plain (c : Char) : ∀ d ∈ escapeChar c, Plain d := by
  have hletters : ∀ p ∈ escapes, Plain p.1 := by decide
  have hhex : ∀ n < 16, Plain (hexDigit n) := by decide
  unfold escapeChar
  split
  · rename_i p hfind
    intro d hd
    rw [mem_pair] at hd
    rcases hd with rfl | rfl
    · decide
    · exact hletters p (mem_of_find?_eq_some hfind)
  · split
    · intro d hd
      simp only [mem_cons, not_mem_nil, or_false] at hd
      rcases hd with rfl | rfl | rfl | rfl | rfl | rfl
      · decide
      · decide
      · decide
      · decide
      · exact hhex _ (by omega)
      · exact hhex _ (by omega)
    · rename_i hhigh
      intro d hd
      rw [mem_singleton] at hd
      subst hd
      constructor
      · rintro rfl
        exact hhigh (by decide)
      · rintro rfl
        exact hhigh (by decide)

theorem quoted_plain (s : String) : ∀ c ∈ quoted s, Plain c := by
  intro c hc
  rcases mem_append.1 hc with hc | hc
  · obtain ⟨d, -, hd⟩ := mem_flatMap.1 hc
    exact escapeChar_plain d c hd
  · rw [mem_singleton.1 hc]
    decide

theorem encodeChars_plain (e : LogEntry) : ∀ c ∈ encodeChars e, Plain c := by
  have htime : ∀ c ∈ Nat.toDigits 10 e.time.toNat, Plain c := fun c hc ↦ by
    have hdigit := Nat.isDigit_of_mem_toDigits (by decide) (by decide) hc
    constructor
    · rintro rfl
      simp at hdigit
    · rintro rfl
      simp at hdigit
  have hlevel : ∀ c ∈ levelName e.level, Plain c := by
    cases e.level <;> exact plain_of_all (by decide)
  have hkeys : (∀ c ∈ timeKey, Plain c) ∧ (∀ c ∈ componentKey, Plain c) ∧
      (∀ c ∈ levelKey, Plain c) ∧ (∀ c ∈ '"' :: messageKey, Plain c) ∧ Plain '}' :=
    ⟨plain_of_all (by decide), plain_of_all (by decide), plain_of_all (by decide),
      plain_of_all (by decide), by decide⟩
  simp only [encodeChars, forall_mem_append]
  exact ⟨hkeys.1, htime, hkeys.2.1, quoted_plain _, hkeys.2.2.1, hlevel, hkeys.2.2.2.1,
    quoted_plain _, forall_mem_singleton.2 hkeys.2.2.2.2⟩

theorem lawful : json.Lawful where
  fromStr_encode := fun e ↦ by
    simp only [json, String.toList_ofList, decode_encode]
  fromSlice_encode := fun e ↦ by
    show decodeChars (Text.fromUtf8Lossy (Text.utf8 (json.encode e))).toList = some e
    rw [Text.fromUtf8Lossy_utf8, toList_encode, decode_encode]
  one_line := fun e c hc ↦ by
    rw [toList_encode] at hc
    exact encodeChars_plain e c hc
  visible := fun e ↦ by
    have hopen : encodeChars e = '{' :: (encodeChars e).tail := rfl
    intro hempty
    have hchars := congrArg String.toList hempty
    rw [Text.trim, toList_encode, hopen, dropWhile_cons_of_neg (by decide),
      reverse_cons, String.toList_ofList, String.toList_empty, reverse_eq_nil_iff,
      dropWhile_eq_nil_iff] at hchars
    exact absurd (hchars '{' (by simp)) (by decide)

/-! ## Lines -/

/-- A line up to the text of its message. -/
def front (time : UInt64) (component : String) (level : LogLevel) : List Char :=
  timeKey ++ (Nat.toDigits 10 time.toNat ++ (componentKey ++ (quoted component ++
    (levelKey ++ (levelName level ++ '"' :: messageKey)))))

theorem line_eq (e : LogEntry) :
    line json e = (front e.time e.component e.level).flatMap String.utf8EncodeChar ++
      ((e.message.toList.flatMap escapeChar).flatMap String.utf8EncodeChar ++ [34, 125, 10]) := by
  have hend : [34, 125] = ['"', '}'].flatMap String.utf8EncodeChar := by decide
  have hbytes : line json e = (encodeChars e).flatMap String.utf8EncodeChar ++ [10] := by
    rw [line, Text.utf8, toList_encode]
  have hchars : encodeChars e = front e.time e.component e.level ++
      (e.message.toList.flatMap escapeChar ++ ['"', '}']) := by
    simp [encodeChars, front, quoted]
  rw [hbytes, hchars, flatMap_append, flatMap_append, ← hend]
  simp

/-- The bytes of a line up to the text of its message. -/
def frontBytes (time : UInt64) (component : String) (level : LogLevel) : List UInt8 :=
  (front time component level).flatMap String.utf8EncodeChar

/-- The bytes of a message. -/
def messageBytes (message : String) : List UInt8 :=
  (message.toList.flatMap escapeChar).flatMap String.utf8EncodeChar

theorem length_line (e : LogEntry) : (line json e).length =
    (frontBytes e.time e.component e.level).length + ((messageBytes e.message).length + 3) := by
  rw [line_eq, length_append, length_append]
  rfl

/-- A marker's message ends with the letter `l`. -/
theorem messageBytes_marker :
    ∃ start, messageBytes markerMessage = start ++ [108] ∧ start.length = 70 := by
  have hmessage : (messageBytes markerMessage).getLast? = some 108 ∧
      (messageBytes markerMessage).length = 71 := by
    decide +kernel
  obtain ⟨start, hstart⟩ := getLast?_eq_some_iff.1 hmessage.1
  refine ⟨start, hstart, ?_⟩
  have hlength := hmessage.2
  rw [hstart, length_append] at hlength
  exact Nat.succ.inj hlength

theorem marker_ends (time : UInt64) :
    ∃ start, line json (marker time) = start ++ [108, 34, 125, 10] := by
  obtain ⟨start, hstart, -⟩ := messageBytes_marker
  refine ⟨frontBytes time "huntsman" .warning ++ start, ?_⟩
  have hmessage : (markerMessage.toList.flatMap escapeChar).flatMap String.utf8EncodeChar =
    start ++ [108] := hstart
  rw [line_eq, marker, hmessage, append_assoc, append_assoc]
  rfl

theorem length_marker (time : UInt64) : (line json (marker time)).length =
    (frontBytes time "huntsman" .warning).length + 74 := by
  obtain ⟨start, hstart, hlength⟩ := messageBytes_marker
  rw [length_line, marker, hstart, length_append, hlength]
  rfl

theorem fits_eq (s : ScanDir) (e : LogEntry) : fits json s e =
    decide (s.primaryBytes.length + (line json e).length + (line json (marker e.time)).length ≤
      maxLogBytes) := by
  unfold fits boundedJson
  simp only
  split
  · rename_i hsize
    split at hsize
    · rename_i hlong
      rw [eq_comm, decide_eq_false_iff_not, line_length]
      omega
    · simp at hsize
  · rename_i bytes hsize
    split at hsize
    · simp at hsize
    · rw [← Except.ok.inj hsize]
      rfl

/-! ## Calls on a disk where nothing fails -/

def sound : Disk := ⟨none, none, .whole, .whole, .whole⟩

variable {s : ScanDir} {e : LogEntry}

theorem appendAll_ok {json : Json} {s' : ScanDir} {disk : Disk}
    (h : appendLog json disk e s = (.ok (), s')) (rest : List (Disk × LogEntry)) :
    appendAll json s ((disk, e) :: rest) =
      ((appendAll json s' rest).1, e :: (appendAll json s' rest).2) := by
  rw [appendAll, h]

theorem appendLog_fits (hregistered : s.registered = true)
    (hover : s.overflow = none) (hfits : s.primaryBytes.length + (line json e).length +
      (line json (marker e.time)).length ≤ maxLogBytes) :
    appendLog json sound e s =
      (.ok (), { s with primary := some (s.primaryBytes ++ line json e) }) := by
  unfold appendLog
  rw [if_neg (by rw [hregistered]; decide)]
  have hto : s.overflow = none ∧ fits json { s with primary := some s.primaryBytes } e = true := by
    rw [fits_eq, decide_eq_true_iff]
    exact ⟨hover, hfits⟩
  simp only [sound]
  rw [if_pos hto]
  rfl

theorem appendLog_no_room (hregistered : s.registered = true)
    (hover : s.overflow = none) (hsize : (Text.utf8 (json.encode e)).length ≤ maxResultsBytes)
    (hroom : maxLogBytes < s.primaryBytes.length + (line json (marker e.time)).length) :
    appendLog json sound e s =
      (.ok (), { s with primary := some s.primaryBytes, overflow := some (line json e) }) := by
  have hto : ¬ (s.overflow = none ∧
      fits json { s with primary := some s.primaryBytes } e = true) := by
    rw [fits_eq, decide_eq_true_iff]
    rintro ⟨-, hfits⟩
    have hfits' : s.primaryBytes.length + (line json e).length +
      (line json (marker e.time)).length ≤ maxLogBytes := hfits
    omega
  have hbytes : s.overflowBytes = [] := by rw [ScanDir.overflowBytes, hover]; rfl
  have hfull : ∀ s' : ScanDir, s'.primaryBytes = s.primaryBytes →
      addMarker json sound e false s' = (.ok (), s') := by
    intro s' hsame
    rw [addMarker, if_neg (fun hadd ↦ by rw [hsame] at hadd; omega)]
  unfold appendLog
  rw [if_neg (by rw [hregistered]; decide)]
  simp only [sound]
  rw [if_neg hto]
  unfold archive boundedJson
  rw [if_neg (by omega)]
  simp only [appendDurable]
  show addMarker json sound e s.overflow.isSome
    ⟨s.id, s.dir, s.registered, some s.primaryBytes, some (s.overflowBytes ++ line json e)⟩ = _
  rw [hover, hbytes, nil_append, Option.isSome_none]
  exact hfull _ rfl

/-- A call that finds room for its entry and a marker is clean. -/
theorem clean_of_fits (hfits : s.primaryBytes.length +
    (line json e).length + (line json (marker e.time)).length ≤ maxLogBytes) :
    Clean json s sound e where
  log_harmless := trivial
  overflow_harmless := trivial
  starts := fun hstarts ↦ by
    have hno := hstarts.2.1
    rw [fits_eq, decide_eq_false_iff_not] at hno
    exact absurd hfits hno

/-- Two calls that both find room. -/
theorem appendAll_room {id dir : String} {first second : LogEntry}
    (hfirst : (line json first).length + (line json (marker first.time)).length ≤ maxLogBytes)
    (hsecond : (line json first).length + (line json second).length +
      (line json (marker second.time)).length ≤ maxLogBytes) :
    CleanRun json (.create id dir) [(sound, first), (sound, second)] ∧
      ∃ s, appendAll json (.create id dir) [(sound, first), (sound, second)] =
        (s, [first, second]) := by
  have hroom : (ScanDir.create id dir).primaryBytes.length + (line json first).length +
      (line json (marker first.time)).length ≤ maxLogBytes := by
    rw [show (ScanDir.create id dir).primaryBytes.length = 0 from rfl, Nat.zero_add]
    exact hfirst
  have hone : appendLog json sound first (.create id dir) =
      (.ok (), ⟨id, dir, true, some ([] ++ line json first), none⟩) :=
    appendLog_fits rfl rfl hroom
  have hroom' : (ScanDir.mk id dir true (some ([] ++ line json first)) none).primaryBytes.length +
      (line json second).length + (line json (marker second.time)).length ≤ maxLogBytes := by
    rw [nil_append]
    exact hsecond
  have htwo : appendLog json sound second ⟨id, dir, true, some ([] ++ line json first), none⟩ =
      (.ok (), ⟨id, dir, true, some ([] ++ line json first ++ line json second), none⟩) :=
    appendLog_fits rfl rfl hroom'
  refine ⟨⟨clean_of_fits hroom, ?_, trivial⟩, ?_⟩
  · rw [hone]
    exact clean_of_fits hroom'
  · refine ⟨⟨id, dir, true, some ([] ++ line json first ++ line json second), none⟩, ?_⟩
    rw [appendAll_ok hone, appendAll_ok htwo, appendAll]

/-! ## A short run -/

def first : LogEntry := ⟨7, "source", .info, "found"⟩

/-- An entry with text to escape. -/
def second : LogEntry := ⟨8, "a \"b\"", .error, "two\nlines"⟩

theorem first_fits :
    (line json first).length + (line json (marker first.time)).length ≤ maxLogBytes := by
  rw [length_line, length_marker]
  decide +kernel

theorem second_fits : (line json first).length + (line json second).length +
    (line json (marker second.time)).length ≤ maxLogBytes := by
  rw [length_line, length_line, length_marker]
  decide +kernel

theorem log_kept_short : ∃ s,
    appendAll json (.create "1" "scans/1") [(sound, first), (sound, second)] =
        (s, [first, second]) ∧
      s.primaryBytes.length ≤ maxLogBytes ∧
      (s.overflowBytes ≠ [] → ∃ kept time,
        s.primaryBytes = linesOf json kept ++ line json (marker time)) ∧
      (if s.primaryBytes.length + s.overflowBytes.length ≤ maxResultsBytes then
        ∃ entries, WithMarker [first, second] entries ∧ log json s = .ok entries
      else ∃ error, log json s = .error error) := by
  obtain ⟨hclean, s, hrun⟩ := appendAll_room first_fits second_fits
  exact ⟨s, hrun, log_kept lawful "1" "scans/1" _ hclean s [first, second] hrun⟩

/-! ## A run without room for the marker -/

/-- An entry whose message is `n` letters. -/
def letters (n : ℕ) : LogEntry := ⟨9, "source", .info, String.ofList (List.replicate n 'a')⟩

theorem messageBytes_letters (n : ℕ) : messageBytes (letters n).message = List.replicate n 97 := by
  have hletter : (escapeChar 'a').flatMap String.utf8EncodeChar = [97] := by decide
  rw [messageBytes, letters, String.toList_ofList]
  induction n with
  | zero => rfl
  | succ n ih =>
    rw [replicate_succ, flatMap_cons, flatMap_append, ih, hletter,
      replicate_succ, singleton_append]

theorem length_letters (n : ℕ) :
    (line json (letters n)).length = (frontBytes 9 "source" .info).length + (n + 3) := by
  rw [length_line, messageBytes_letters, length_replicate]
  rfl

theorem letters_end (n : ℕ) :
    ∃ start, line json (letters (n + 1)) = start ++ [97, 34, 125, 10] := by
  have hmessage := messageBytes_letters (n + 1)
  have hline := line_eq (letters (n + 1))
  rw [messageBytes] at hmessage
  rw [hmessage, replicate_succ', append_assoc, ← append_assoc] at hline
  exact ⟨_, hline⟩

/-- As many letters as leave room for the marker of their time, to the byte, after one of them. -/
def fillerLength : ℕ :=
  maxLogBytes - (line json (marker 9)).length - ((frontBytes 9 "source" .info).length + 4)

def filler : LogEntry := letters (fillerLength + 1)

theorem length_filler :
    (line json filler).length + (line json (marker filler.time)).length = maxLogBytes := by
  have hroom : (line json (marker 9)).length + ((frontBytes 9 "source" .info).length + 4) ≤
      maxLogBytes := by
    rw [length_marker]
    decide +kernel
  have hall : ∀ n, n = maxLogBytes - (line json (marker 9)).length -
        ((frontBytes 9 "source" .info).length + 4) →
      (line json (letters (n + 1))).length + (line json (marker (letters (n + 1)).time)).length =
        maxLogBytes := by
    intro n hn
    rw [length_letters, show (letters (n + 1)).time = 9 from rfl]
    generalize (frontBytes 9 "source" .info).length = front at hroom hn ⊢
    generalize (line json (marker 9)).length = markerLength at hroom hn ⊢
    omega
  rw [filler]
  exact hall fillerLength (by rw [fillerLength])

/-- An entry that leaves room for no more than its own marker, then one with a longer marker. -/
theorem appendAll_no_room {id dir : String} {first later : LogEntry}
    (hfirst : (line json first).length + (line json (marker first.time)).length = maxLogBytes)
    (hlonger : (line json (marker later.time)).length =
      (line json (marker first.time)).length + 1)
    (hsize : (Text.utf8 (json.encode later)).length ≤ maxResultsBytes) :
    ∃ s, appendAll json (.create id dir) [(sound, first), (sound, later)] = (s, [first, later]) ∧
      s.overflowBytes = line json later ∧ s.primaryBytes = line json first := by
  have hempty : (ScanDir.create id dir).primaryBytes = [] := rfl
  have hone : appendLog json sound first (.create id dir) =
      (.ok (), ⟨id, dir, true, some (line json first), none⟩) := by
    rw [appendLog_fits rfl rfl, hempty, nil_append]
    · rfl
    · rw [hempty, length_nil, Nat.zero_add]
      exact hfirst.le
  have htwo : appendLog json sound later ⟨id, dir, true, some (line json first), none⟩ =
      (.ok (), ⟨id, dir, true, some (line json first), some (line json later)⟩) := by
    have hbytes : (ScanDir.mk id dir true (some (line json first)) none).primaryBytes =
      line json first := rfl
    rw [appendLog_no_room rfl rfl hsize, hbytes]
    rw [hbytes, hlonger]
    omega
  refine ⟨⟨id, dir, true, some (line json first), some (line json later)⟩, ?_, rfl, rfl⟩
  rw [appendAll_ok hone, appendAll_ok htwo, appendAll]

/-- The entry that finds room for no marker, at a time with a digit more. -/
def later : LogEntry := ⟨10, "source", .info, "b"⟩

/-- **The marker may be missing.**  The first entry leaves room for the marker of its own time; the
second goes to the overflow log, and the marker of its time is a byte too long. -/
theorem marker_missing : json.Lawful ∧ ∃ s,
    appendAll json (.create "1" "scans/1") [(sound, filler), (sound, later)] =
        (s, [filler, later]) ∧
      s.overflowBytes ≠ [] ∧ ∀ kept time, s.primaryBytes ≠ kept ++ line json (marker time) := by
  have hlonger : (line json (marker later.time)).length =
      (line json (marker filler.time)).length + 1 := by
    have hlater : later.time = 10 := rfl
    have hfiller : filler.time = 9 := rfl
    rw [hlater, hfiller, length_marker, length_marker]
    decide +kernel
  have hsize : (Text.utf8 (json.encode later)).length ≤ maxResultsBytes := by
    have hlater : (line json later).length ≤ maxResultsBytes := by
      rw [length_line]
      decide +kernel
    rw [line_length] at hlater
    exact Nat.le_of_succ_le hlater
  obtain ⟨s, hrun, hover, hprimary⟩ :=
    appendAll_no_room length_filler hlonger hsize
  refine ⟨lawful, s, hrun, ?_, fun kept time heq ↦ ?_⟩
  · rw [hover]
    exact append_ne_nil_of_right_ne_nil _ (cons_ne_nil _ _)
  · obtain ⟨start, hstart⟩ := marker_ends time
    obtain ⟨front, hfront⟩ := letters_end fillerLength
    rw [hprimary, filler, hfront, hstart, ← append_assoc] at heq
    exact absurd (append_inj_right' heq rfl) (by decide)

end Huntsman.ScanLog.Serde
