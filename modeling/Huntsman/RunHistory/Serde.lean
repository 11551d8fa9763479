import Huntsman.RunHistory
import Huntsman.ScanLog.Serde

/-!
# The JSON of a run record

The compact JSON that a record is written as, and the reading of such a line.  It is lawful
(`Serde.lawful`): what is written of a record is read off whatever follows it (`read_encode`), so
that no record's text is the beginning of another's.
-/

set_option autoImplicit false

namespace Huntsman.RunHistory.Serde

open ScanLog.Serde (quoted readText readText_quoted quoted_plain expect expect_append)

def commitKey : List Char := "\x7b\"commit\":\"".toList

def suiteKey : List Char := ",\"suite\":\"".toList

def passedKey : List Char := ",\"passed\":".toList

def failedKey : List Char := ",\"failed\":".toList

def recordedKey : List Char := ",\"recorded_at_unix\":".toList

def number (n : UInt64) : List Char := Nat.toDigits 10 n.toNat

def encodeChars (r : RunRecord) : List Char :=
  commitKey ++ (quoted r.commit ++ (suiteKey ++ (quoted r.suite ++ (passedKey ++ (number r.passed ++
    (failedKey ++ (number r.failed ++ (recordedKey ++ (number r.recordedAtUnix ++ ['}'])))))))))

/-- A number, and what follows its digits. -/
def readNumber (chars : List Char) : UInt64 × List Char :=
  (UInt64.ofNat (Nat.ofDigitChars 10 (chars.takeWhile Char.isDigit) 0),
    chars.dropWhile Char.isDigit)

/-- A record, and what follows its closing brace. -/
def readRecord (chars : List Char) : Option (RunRecord × List Char) := do
  let rest ← expect commitKey chars
  let commit ← readText rest
  let rest ← expect suiteKey commit.2
  let suite ← readText rest
  let rest ← expect passedKey suite.2
  let passed := readNumber rest
  let rest ← expect failedKey passed.2
  let failed := readNumber rest
  let rest ← expect recordedKey failed.2
  let recorded := readNumber rest
  let rest ← expect ['}'] recorded.2
  some (⟨String.ofList commit.1, String.ofList suite.1, passed.1, failed.1, recorded.1⟩, rest)

theorem readNumber_number (n : UInt64) {rest : List Char}
    (h : ∀ c ∈ rest.head?, c.isDigit = false) : readNumber (number n ++ rest) = (n, rest) := by
  have hdigits : ∀ c ∈ Nat.toDigits 10 n.toNat, c.isDigit = true :=
    fun c hc ↦ Nat.isDigit_of_mem_toDigits (by decide) (by decide) hc
  have htake : rest.takeWhile Char.isDigit = [] := by
    rcases rest with _ | ⟨c, rest⟩
    · rfl
    · rw [List.takeWhile_cons_of_neg]
      rw [h c rfl]
      exact Bool.false_ne_true
  rw [readNumber, number, List.takeWhile_append_of_pos hdigits,
    List.dropWhile_append_of_pos hdigits, htake, List.append_nil, Nat.ofDigitChars_ten_toDigits,
    UInt64.ofNat_toNat, Pieces.dropWhile_eq_self h]

theorem read_encode (r : RunRecord) (rest : List Char) :
    readRecord (encodeChars r ++ rest) = some (r, rest) := by
  have hfailed : ∀ more : List Char, ∀ c ∈ (failedKey ++ more).head?, c.isDigit = false := by
    rintro more c ⟨⟩
    decide
  have hrecorded : ∀ more : List Char, ∀ c ∈ (recordedKey ++ more).head?, c.isDigit = false := by
    rintro more c ⟨⟩
    decide
  have hclose : ∀ c ∈ (['}'] ++ rest).head?, c.isDigit = false := by
    rintro c ⟨⟩
    decide
  simp only [readRecord, encodeChars, List.append_assoc, expect_append, Option.bind_eq_bind,
    Option.bind_some, readText_quoted, readNumber_number _ (hfailed _),
    readNumber_number _ (hrecorded _), readNumber_number _ hclose, String.ofList_toList]

/-- What is written of a record is read off whatever follows it. -/
theorem encodeChars_delimited : Codes.Delimited encodeChars := by
  intro r r' s t h
  have hread := read_encode r s
  rw [h, read_encode r' t] at hread
  cases hread
  exact ⟨rfl, rfl⟩

/-- The JSON of records. -/
def json : Json where
  encode r := String.ofList (encodeChars r)
  fromStr s :=
    match readRecord s.toList with
    | some (r, _) => if encodeChars r = s.toList then .ok r else .error "trailing characters"
    | none => .error "expected value"

theorem toList_encode (r : RunRecord) : (json.encode r).toList = encodeChars r :=
  String.toList_ofList

theorem fromStr_ok {s : String} {r : RunRecord} (h : json.fromStr s = .ok r) :
    s = json.encode r := by
  simp only [json] at h
  split at h
  · split at h
    · rename_i hsame
      rw [← Except.ok.inj h]
      exact String.toList_inj.1 (hsame.symm.trans (toList_encode _).symm)
    · simp at h
  · simp at h

theorem number_plain (n : UInt64) : '\n' ∉ number n := by
  intro h
  exact absurd (Nat.isDigit_of_mem_toDigits (by decide) (by decide) h) (by decide)

theorem quoted_one_line (s : String) : '\n' ∉ quoted s := fun h ↦ (quoted_plain s _ h).1 rfl

theorem encodeChars_one_line (r : RunRecord) : '\n' ∉ encodeChars r := by
  have hkeys : '\n' ∉ commitKey ∧ '\n' ∉ suiteKey ∧ '\n' ∉ passedKey ∧ '\n' ∉ failedKey ∧
      '\n' ∉ recordedKey ∧ '\n' ∉ ['}'] := by
    decide
  simp only [encodeChars, List.mem_append, not_or]
  exact ⟨hkeys.1, quoted_one_line _, hkeys.2.1, quoted_one_line _, hkeys.2.2.1, number_plain _,
    hkeys.2.2.2.1, number_plain _, hkeys.2.2.2.2.1, number_plain _, hkeys.2.2.2.2.2⟩

theorem lawful : json.Lawful where
  fromStr_encode := fun r ↦ by
    have hread := read_encode r []
    rw [List.append_nil] at hread
    simp only [json, String.toList_ofList, hread, if_true]
  one_line := fun r ↦ by
    rw [toList_encode]
    exact encodeChars_one_line r
  object := fun r ↦ by
    have hopen : commitKey = '{' :: commitKey.tail := by decide
    refine ⟨commitKey.tail ++ (quoted r.commit ++ (suiteKey ++ (quoted r.suite ++ (passedKey ++
      (number r.passed ++ (failedKey ++ (number r.failed ++ (recordedKey ++
        number r.recordedAtUnix)))))))), ?_⟩
    rw [toList_encode, encodeChars, hopen]
    simp only [List.cons_append, List.append_assoc, List.tail_cons]
  incomplete := fun r s hstart hne other hread ↦ by
    obtain rfl := fromStr_ok hread
    obtain ⟨more, hmore⟩ := hstart
    rw [toList_encode, toList_encode, ← List.append_nil (encodeChars r)] at hmore
    exact hne (by rw [(encodeChars_delimited _ _ _ _ hmore).1])

/-! ## Two runs -/

def sample : RunRecord := ⟨"abc123", "lib", 12, 0, 1⟩

theorem length_sample : (line json sample).length = 78 := by
  decide +kernel

/-- An append that stops in the middle of its line, and one that returns. -/
theorem survives_torn :
    Survives json "runs.jsonl" none [] [(sample, .cut 5), (sample, .whole)] := by
  refine (survives_iff lawful "runs.jsonl" none [] rfl _).2 (allFit_torn 5 ?_)
  rw [length_sample]
  decide

/-- **The file outgrows its bound.**  As many copies of a record as fit are read back; another
append returns, and the file it leaves is refused. -/
theorem outgrown : json.Lawful ∧ ∃ file,
    load json "runs.jsonl" (some file) = .ok (List.replicate 215092 sample) ∧
    append json "runs.jsonl" (some file) sample .whole =
      (.ok, some (file ++ line json sample)) ∧
    load json "runs.jsonl" (some (file ++ line json sample)) =
      .error (.io "store: runs.jsonl: exceeds 16777216 bytes") ∧
    ¬ Survives json "runs.jsonl" (some file) (List.replicate 215092 sample)
      [(sample, .whole)] := by
  obtain ⟨file, -, hload, happend, hrefused⟩ := append_over (n := 215092) lawful "runs.jsonl" sample
    (by rw [length_sample]; decide) (by rw [length_sample]; decide)
  refine ⟨lawful, file, hload, happend, hrefused, ?_⟩
  rintro ⟨⟨hloads, -⟩, -⟩
  rw [happend, hrefused] at hloads
  cases hloads

end Huntsman.RunHistory.Serde
