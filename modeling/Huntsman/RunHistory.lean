import Huntsman.Lib.Pieces
import Huntsman.Text

/-!
# The history of test runs

The history is a file of JSON lines.  `load` reads its records back, `append` adds one after it has
repaired an unterminated tail, and either refuses a file over `maxRunHistoryBytes`.

An append may stop at any point (`Reach`): before its repair reaches the file, or after any number
of its line's bytes did.  A history that loads is a file of whole lines, each blank or a record, and
a rest (`Holds`), and an append, wherever it stops, leaves such a file (`Holds.append`).  So a run
of appends keeps every record it should exactly when each of them keeps to the bound
(`survives_iff`), which only reads check: `outgrown` is a run in which an append returns and leaves
a file that nothing reads again.
-/

set_option autoImplicit false

namespace Huntsman.RunHistory

open List Pieces Text

/-! ## The code -/

def maxRunHistoryBytes : ℕ := 16 * 1024 * 1024

structure RunRecord where
  commit : String
  suite : String
  passed : UInt64
  failed : UInt64
  recordedAtUnix : UInt64
deriving DecidableEq

inductive HistoryError where
  | io (text : String)
  | malformed (line : ℕ) (reason : String)
deriving DecidableEq

/-- The JSON form of a record: its compact text, and a record read back from text. -/
structure Json where
  encode : RunRecord → String
  fromStr : String → Except String RunRecord

/-- `u8::is_ascii_whitespace`. -/
def isAsciiWhitespace (b : UInt8) : Bool := b == 32 || b == 9 || b == 10 || b == 12 || b == 13

section Code

variable (json : Json) (path : String)

/-- The file's bytes, `none` where it does not exist. -/
def readHistory (file : Option (List UInt8)) : Except HistoryError (Option (List UInt8)) :=
  match file with
  | none => .ok none
  | some bytes =>
    if maxRunHistoryBytes < bytes.length then
      .error (.io ("store: " ++ path ++ ": exceeds " ++ toString maxRunHistoryBytes ++ " bytes"))
    else .ok (some bytes)

def parseLine (segment : List UInt8) : Option RunRecord :=
  match Text.fromUtf8 segment with
  | none => none
  | some text =>
    match json.fromStr (Text.trim text) with
    | .ok record => some record
    | .error _ => none

/-- Why a line is malformed. -/
def lineFault (segment : List UInt8) : String :=
  match Text.fromUtf8 segment with
  | none => "invalid UTF-8"
  | some text =>
    match json.fromStr (Text.trim text) with
    | .ok _ => "unparseable"
    | .error e => e

/-- The loop of `load` over the segments from `index` on. -/
def readSegments (complete : Bool) : ℕ → List (List UInt8) → Except HistoryError (List RunRecord)
  | _, [] => .ok []
  | index, segment :: rest =>
    if segment.all isAsciiWhitespace then readSegments complete (index + 1) rest
    else
      match parseLine json segment with
      | some record => (readSegments complete (index + 1) rest).map (record :: ·)
      | none =>
        if rest = [] ∧ complete = false then .ok []
        else .error (.malformed (index + 1) (lineFault json segment))

def load (file : Option (List UInt8)) : Except HistoryError (List RunRecord) :=
  match readHistory path file with
  | .error e => .error e
  | .ok none => .ok []
  | .ok (some bytes) =>
    if bytes = [] then .ok []
    else
      let complete := bytes.getLast? == some 10
      let segments := bytes.splitOn 10
      readSegments json complete 0 (if complete then segments.dropLast else segments)

/-- How much of the file ends with its last newline. -/
def keep (bytes : List UInt8) : ℕ := (bytes.rdropWhile (· != 10)).length

/-- The file after its unterminated tail was repaired. -/
def healTornTail (file : Option (List UInt8)) : Except HistoryError (Option (List UInt8)) :=
  match readHistory path file with
  | .error e => .error e
  | .ok none => .ok none
  | .ok (some bytes) =>
    if bytes = [] ∨ bytes.getLast? = some 10 then .ok (some bytes)
    else if (parseLine json (bytes.drop (keep bytes))).isSome then .ok (some (bytes ++ [10]))
    else .ok (some (bytes.take (keep bytes)))

/-- The bytes an append writes. -/
def line (record : RunRecord) : List UInt8 := Text.utf8 (json.encode record) ++ [10]

/-- How far an append gets before it stops, because the process ends or a write fails. -/
inductive Reach where
  /-- Nothing of it reached the file. -/
  | nowhere
  /-- The tail is repaired and this many bytes of the line were written. -/
  | cut (written : ℕ)
  | whole
deriving DecidableEq

inductive Answer where
  | ok
  | refused (error : HistoryError)
  /-- It did not return `Ok`. -/
  | stopped
deriving DecidableEq

def append (file : Option (List UInt8)) (record : RunRecord) (reach : Reach) :
    Answer × Option (List UInt8) :=
  match healTornTail json path file with
  | .error e => (.refused e, file)
  | .ok healed =>
    match reach with
    | .nowhere => (.stopped, file)
    | .cut written => (.stopped, some (healed.getD [] ++ (line json record).take written))
    | .whole => (.ok, some (healed.getD [] ++ line json record))

/-- The record an append keeps: one that returned, or that stopped when at most the newline was
missing. -/
def kept (answer : Answer) (record : RunRecord) (reach : Reach) : List RunRecord :=
  match answer, reach with
  | .ok, _ => [record]
  | .stopped, .cut written =>
    if (line json record).length ≤ written + 1 then [record] else []
  | _, _ => []

/-- The file loads as `records`, and no append refuses it. -/
def Accepted (file : Option (List UInt8)) (records : List RunRecord) : Prop :=
  load json path file = .ok records ∧
    ∀ record reach error, (append json path file record reach).1 ≠ .refused error

/-- After each append of a run the history is accepted with the records it had and those the appends
kept, in order. -/
def Survives :
    Option (List UInt8) → List RunRecord → List (RunRecord × Reach) → Prop
  | _, _, [] => True
  | file, records, (record, reach) :: rest =>
    let answer := append json path file record reach
    let records' := records ++ kept json answer.1 record reach
    Accepted json path answer.2 records' ∧ Survives answer.2 records' rest

/-- The length of the file once its tail is repaired: its whole lines, and its tail and a newline if
the tail is a record. -/
def repairedLength (bytes : List UInt8) : ℕ :=
  let tail := bytes.drop (keep bytes)
  if tail ≠ [] ∧ (parseLine json tail).isSome then bytes.length + 1 else keep bytes

/-- What the append writes stays within the bound. -/
def Fits (file : Option (List UInt8)) (record : RunRecord) : Reach → Prop
  | .nowhere => True
  | .cut written =>
    repairedLength json (file.getD []) + min written (line json record).length ≤ maxRunHistoryBytes
  | .whole =>
    repairedLength json (file.getD []) + (line json record).length ≤ maxRunHistoryBytes

/-- Every append of a run writes within the bound. -/
def AllFit : Option (List UInt8) → List (RunRecord × Reach) → Prop
  | _, [] => True
  | file, (record, reach) :: rest =>
    Fits json file record reach ∧ AllFit (append json path file record reach).2 rest

end Code

variable {json : Json} {path : String} {file : Option (List UInt8)} {records : List RunRecord}

/-! ## What a file holds -/

/-- The records a segment stands for. -/
def recordsOf (json : Json) (segment : List UInt8) : List RunRecord :=
  if segment.all isAsciiWhitespace then [] else (parseLine json segment).toList

/-- A segment that `load` takes anywhere in the file. -/
def Readable (json : Json) (segment : List UInt8) : Prop :=
  segment.all isAsciiWhitespace = true ∨ (parseLine json segment).isSome = true

theorem recordsOf_nil : recordsOf json [] = [] := rfl

theorem recordsOf_unreadable {segment : List UInt8} (h : ¬ Readable json segment) :
    recordsOf json segment = [] := by
  obtain ⟨hblank, hparse⟩ := not_or.1 h
  rw [recordsOf, if_neg hblank, Option.not_isSome_iff_eq_none.1 hparse]
  rfl

theorem readSegments_readable (complete : Bool) (index : ℕ) {segment : List UInt8}
    (more : List (List UInt8)) (h : Readable json segment) :
    readSegments json complete index (segment :: more) =
      (readSegments json complete (index + 1) more).map (recordsOf json segment ++ ·) := by
  rw [readSegments, recordsOf]
  by_cases hblank : segment.all isAsciiWhitespace = true
  · rw [if_pos hblank, if_pos hblank]
    cases readSegments json complete (index + 1) more <;> rfl
  · obtain ⟨record, hrecord⟩ := Option.isSome_iff_exists.1 (h.resolve_left hblank)
    rw [if_neg hblank, if_neg hblank, hrecord]
    rfl

theorem readSegments_unreadable {complete : Bool} (index : ℕ) {segment : List UInt8}
    {more : List (List UInt8)} (h : ¬ Readable json segment) :
    readSegments json complete index (segment :: more) =
      if more = [] ∧ complete = false then .ok []
      else .error (.malformed (index + 1) (lineFault json segment)) := by
  obtain ⟨hblank, hparse⟩ := not_or.1 h
  rw [readSegments, if_neg hblank, Option.not_isSome_iff_eq_none.1 hparse]

/-- The segments of a file: its lines, and its rest if there is one. -/
def segmentsOf (lines : List (List UInt8)) (rest : List UInt8) : List (List UInt8) :=
  lines ++ if rest = [] then [] else [rest]

theorem readSegments_ok_iff {lines : List (List UInt8)} {rest : List UInt8} (index : ℕ) :
    readSegments json (decide (rest = [])) index (segmentsOf lines rest) = .ok records ↔
      (∀ line ∈ lines, Readable json line) ∧
        records = lines.flatMap (recordsOf json) ++ recordsOf json rest := by
  induction lines generalizing index records with
  | nil =>
    rw [segmentsOf, nil_append, flatMap_nil, nil_append]
    by_cases hrest : rest = []
    · rw [if_pos hrest, hrest, recordsOf_nil]
      simp [readSegments, eq_comm]
    · rw [if_neg hrest, decide_eq_false hrest]
      by_cases hread : Readable json rest
      · rw [readSegments_readable _ _ _ hread]
        simp [readSegments, Except.map, eq_comm]
      · rw [readSegments_unreadable _ hread, recordsOf_unreadable hread]
        simp [eq_comm]
  | cons line lines ih =>
    rw [segmentsOf, cons_append, ← segmentsOf]
    by_cases hread : Readable json line
    · rw [readSegments_readable _ _ _ hread, forall_mem_cons, flatMap_cons,
        append_assoc]
      constructor
      · intro h
        rcases hmore : readSegments json (decide (rest = [])) (index + 1) (segmentsOf lines rest)
          with error | found
        · rw [hmore] at h
          exact absurd h (by simp [Except.map])
        · obtain ⟨hlines, rfl⟩ := (ih (index + 1)).1 hmore
          rw [hmore] at h
          exact ⟨⟨hread, hlines⟩, (Except.ok.inj h).symm⟩
      · rintro ⟨⟨-, hlines⟩, rfl⟩
        rw [(ih (index + 1)).2 ⟨hlines, rfl⟩]
        rfl
    · have hlast : ¬ (segmentsOf lines rest = [] ∧ decide (rest = []) = false) := by
        rintro ⟨hnil, hrest⟩
        rw [decide_eq_false_iff_not] at hrest
        rw [segmentsOf, if_neg hrest] at hnil
        exact absurd (append_eq_nil_iff.1 hnil).2 (cons_ne_nil _ _)
      rw [readSegments_unreadable _ hread, if_neg hlast, forall_mem_cons]
      exact ⟨fun h ↦ absurd h (by simp), fun h ↦ absurd h.1.1 hread⟩

/-- The bytes are whole lines, each of them readable, and a rest, and these are their records. -/
inductive Holds (json : Json) : List UInt8 → List RunRecord → Prop
  | mk {lines : List (List UInt8)} {rest : List UInt8} (hlines : ∀ line ∈ lines, 10 ∉ line)
      (hrest : 10 ∉ rest) (hread : ∀ line ∈ lines, Readable json line) :
      Holds json (Pieces.unlines 10 lines ++ rest)
        (lines.flatMap (recordsOf json) ++ recordsOf json rest)

/-- Whether the last byte is a newline. -/
theorem getLast?_lines {lines : List (List UInt8)} {rest : List UInt8} (hrest : 10 ∉ rest) :
    (Pieces.unlines 10 lines ++ rest).getLast? = some 10 ↔ rest = [] ∧ lines ≠ [] := by
  by_cases hnil : rest = []
  · subst hnil
    rcases lines.eq_nil_or_concat with rfl | ⟨lines, line, rfl⟩
    · simp [unlines]
    · rw [concat_eq_append, unlines_append, unlines_singleton]
      simp
  · rw [getLast?_append_of_ne_nil _ hnil]
    refine ⟨fun h ↦ absurd (mem_of_getLast? h) hrest, fun h ↦ absurd h.1 hnil⟩

theorem lines_eq_nil {lines : List (List UInt8)} {rest : List UInt8} :
    Pieces.unlines 10 lines ++ rest = [] ↔ lines = [] ∧ rest = [] := by
  rcases lines with _ | ⟨line, lines⟩
  · simp [unlines]
  · simp [unlines]

/-- The file needs no repair. -/
theorem lastWhole_iff {lines : List (List UInt8)} {rest : List UInt8} (hrest : 10 ∉ rest) :
    (Pieces.unlines 10 lines ++ rest = [] ∨
      (Pieces.unlines 10 lines ++ rest).getLast? = some 10) ↔ rest = [] := by
  rw [lines_eq_nil, getLast?_lines hrest]
  constructor
  · rintro (⟨-, h⟩ | ⟨h, -⟩) <;> exact h
  · intro h
    by_cases hlines : lines = []
    · exact .inl ⟨hlines, h⟩
    · exact .inr ⟨h, hlines⟩

theorem load_lines {lines : List (List UInt8)} {rest : List UInt8}
    (hlines : ∀ line ∈ lines, 10 ∉ line) (hrest : 10 ∉ rest)
    (hsize : (Pieces.unlines 10 lines ++ rest).length ≤ maxRunHistoryBytes) :
    load json path (some (Pieces.unlines 10 lines ++ rest)) =
      readSegments json (decide (rest = [])) 0 (segmentsOf lines rest) := by
  rw [load, readHistory, if_neg (Nat.not_lt.2 hsize)]
  simp only
  by_cases hempty : unlines 10 lines ++ rest = []
  · rw [if_pos hempty]
    obtain ⟨rfl, rfl⟩ := lines_eq_nil.1 hempty
    rfl
  · rw [if_neg hempty, splitOn_unlines hlines hrest]
    by_cases hnil : rest = []
    · have hlast : (unlines 10 lines ++ rest).getLast? = some 10 :=
        (getLast?_lines hrest).2 ⟨hnil, fun h ↦ hempty (lines_eq_nil.2 ⟨h, hnil⟩)⟩
      rw [hlast, segmentsOf, if_pos hnil, decide_eq_true hnil, append_nil,
        dropLast_concat]
      rfl
    · have hlast : ((unlines 10 lines ++ rest).getLast? == some 10) = false := by
        rw [beq_eq_false_iff_ne]
        exact fun h ↦ hnil ((getLast?_lines hrest).1 h).1
      rw [hlast, segmentsOf, if_neg hnil, decide_eq_false hnil]
      rfl

/-- **What loads** is within the bound and holds the records. -/
theorem load_ok_iff {bytes : List UInt8} :
    load json path (some bytes) = .ok records ↔
      bytes.length ≤ maxRunHistoryBytes ∧ Holds json bytes records := by
  constructor
  · intro h
    have hsize : bytes.length ≤ maxRunHistoryBytes := by
      by_contra hlong
      rw [load, readHistory, if_pos (Nat.lt_of_not_le hlong)] at h
      simp at h
    obtain ⟨lines, rest, rfl, hlines, hrest⟩ := exists_unlines 10 bytes
    rw [load_lines hlines hrest hsize, readSegments_ok_iff] at h
    obtain ⟨hread, rfl⟩ := h
    exact ⟨hsize, .mk hlines hrest hread⟩
  · rintro ⟨hsize, hlines, hrest, hread⟩
    rw [load_lines hlines hrest hsize, readSegments_ok_iff]
    exact ⟨hread, rfl⟩

theorem load_missing : load json path none = load json path (some []) := rfl

theorem load_file_iff : load json path file = .ok records ↔
    (file.getD []).length ≤ maxRunHistoryBytes ∧ Holds json (file.getD []) records := by
  rcases file with _ | bytes
  · rw [load_missing, load_ok_iff]
    rfl
  · exact load_ok_iff

/-! ## The repair -/

/-- The lines of the repaired file. -/
def healedLines (json : Json) (lines : List (List UInt8)) (rest : List UInt8) :
    List (List UInt8) :=
  if rest ≠ [] ∧ (parseLine json rest).isSome then lines ++ [rest] else lines

theorem keep_lines {lines : List (List UInt8)} {rest : List UInt8} (hrest : 10 ∉ rest) :
    keep (Pieces.unlines 10 lines ++ rest) = (Pieces.unlines 10 lines).length := by
  rw [keep, rdropWhile_unlines _ hrest]

theorem repairedLength_lines {lines : List (List UInt8)} {rest : List UInt8} (hrest : 10 ∉ rest) :
    repairedLength json (Pieces.unlines 10 lines ++ rest) =
      (Pieces.unlines 10 (healedLines json lines rest)).length := by
  rw [repairedLength, keep_lines hrest, drop_left, healedLines]
  split
  · rw [unlines_append, unlines_singleton]
    simp
    omega
  · rfl

theorem heal_lines {lines : List (List UInt8)} {rest : List UInt8} (hrest : 10 ∉ rest)
    (hsize : (Pieces.unlines 10 lines ++ rest).length ≤ maxRunHistoryBytes) :
    healTornTail json path (some (Pieces.unlines 10 lines ++ rest)) =
      .ok (some (Pieces.unlines 10 (healedLines json lines rest))) := by
  rw [healTornTail, readHistory, if_neg (Nat.not_lt.2 hsize)]
  simp only
  rw [healedLines, keep_lines hrest, drop_left, take_left]
  by_cases hnil : rest = []
  · rw [if_pos ((lastWhole_iff hrest).2 hnil), if_neg (fun h ↦ h.1 hnil), hnil, append_nil]
  · rw [if_neg (fun h ↦ hnil ((lastWhole_iff hrest).1 h))]
    by_cases hparse : (parseLine json rest).isSome = true
    · rw [if_pos hparse, if_pos ⟨hnil, hparse⟩, unlines_append, unlines_singleton,
        append_assoc]
    · rw [if_neg hparse, if_neg (fun h ↦ hparse h.2)]

/-- The repair keeps the records: a tail that is dropped stands for none. -/
theorem healedLines_records {lines : List (List UInt8)} {rest : List UInt8} :
    (healedLines json lines rest).flatMap (recordsOf json) =
      lines.flatMap (recordsOf json) ++ recordsOf json rest := by
  rw [healedLines]
  split
  · rw [flatMap_append, flatMap_singleton]
  · rename_i h
    have hnone : recordsOf json rest = [] := by
      rw [recordsOf]
      split
      · rfl
      · rename_i hblank
        have hrest : rest ≠ [] := by
          rintro rfl
          exact hblank rfl
        rw [Option.not_isSome_iff_eq_none.1 fun hparse ↦ h ⟨hrest, hparse⟩]
        rfl
    rw [hnone, append_nil]

theorem healedLines_readable {lines : List (List UInt8)} {rest : List UInt8}
    (h : ∀ line ∈ lines, Readable json line) :
    ∀ line ∈ healedLines json lines rest, Readable json line := by
  intro line hline
  rw [healedLines] at hline
  split at hline
  · rename_i hrest
    rcases mem_append.1 hline with hline | hline
    · exact h line hline
    · rw [mem_singleton.1 hline]
      exact .inr hrest.2
  · exact h line hline

theorem healedLines_whole {lines : List (List UInt8)} {rest : List UInt8}
    (h : ∀ line ∈ lines, 10 ∉ line) (hrest : 10 ∉ rest) :
    ∀ line ∈ healedLines json lines rest, 10 ∉ line := by
  intro line hline
  rw [healedLines] at hline
  split at hline
  · rcases mem_append.1 hline with hline | hline
    · exact h line hline
    · rw [mem_singleton.1 hline]
      exact hrest
  · exact h line hline

/-! ## An append -/

/-- The JSON of a record is an object on one line, reads back as the record, and no proper beginning
of it is a record's. -/
structure Json.Lawful (json : Json) : Prop where
  fromStr_encode : ∀ record, json.fromStr (json.encode record) = .ok record
  one_line : ∀ record, '\n' ∉ (json.encode record).toList
  object : ∀ record, ∃ inner, (json.encode record).toList = '{' :: (inner ++ ['}'])
  incomplete : ∀ record s, s.toList <+: (json.encode record).toList → s ≠ json.encode record →
    ∀ other, json.fromStr s ≠ .ok other

/-- A text that starts with a brace is trimmed at its end only. -/
theorem trim_starts {s : String} {rest : List Char} (h : s.toList <+: '{' :: rest) :
    (Text.trim s).toList <+: s.toList := by
  have hfront : s.toList.dropWhile Text.isWhitespace = s.toList := by
    rcases hs : s.toList with _ | ⟨c, chars⟩
    · rfl
    · rw [hs, List.cons_prefix_cons] at h
      rw [h.1, List.dropWhile_cons_of_neg (by decide)]
  rw [Text.trim, String.toList_ofList, hfront]
  exact List.rdropWhile_prefix _ _

theorem trim_object {s : String} {inner : List Char} (h : s.toList = '{' :: (inner ++ ['}'])) :
    Text.trim s = s := by
  have htrim : Pieces.Trimmed Text.isWhitespace s.toList := by
    rw [h]
    constructor
    · rintro c ⟨⟩
      decide
    · intro c hc
      rw [← cons_append, getLast?_concat] at hc
      cases hc
      decide
  rw [Text.trim, show ((s.toList.dropWhile Text.isWhitespace).reverse.dropWhile
    Text.isWhitespace).reverse = trim Text.isWhitespace s.toList from rfl, htrim.trim_eq,
    String.ofList_toList]

variable (hjson : json.Lawful)

include hjson

theorem parseLine_encode (record : RunRecord) :
    parseLine json (Text.utf8 (json.encode record)) = some record := by
  obtain ⟨inner, hinner⟩ := hjson.object record
  rw [parseLine, fromUtf8_eq_some.2 rfl]
  simp only
  rw [trim_object hinner, hjson.fromStr_encode]

theorem recordsOf_encode (record : RunRecord) :
    recordsOf json (Text.utf8 (json.encode record)) = [record] := by
  obtain ⟨inner, hinner⟩ := hjson.object record
  have hbrace : utf8 (json.encode record) =
      123 :: (inner ++ ['}']).flatMap String.utf8EncodeChar := by
    rw [utf8, hinner, flatMap_cons]
    rfl
  have hvisible : ¬ (utf8 (json.encode record)).all isAsciiWhitespace = true := by
    rw [hbrace, all_cons]
    simp [isAsciiWhitespace]
  rw [recordsOf, if_neg hvisible, parseLine_encode hjson]
  rfl

/-- A line that was cut short is no record. -/
theorem parseLine_cut {record : RunRecord} {written : ℕ}
    (h : written < (Text.utf8 (json.encode record)).length) :
    parseLine json ((Text.utf8 (json.encode record)).take written) = none := by
  rw [parseLine]
  rcases htext : fromUtf8 ((utf8 (json.encode record)).take written) with _ | text
  · rfl
  · simp only
    obtain ⟨inner, hinner⟩ := hjson.object record
    have hbytes := fromUtf8_eq_some.1 htext
    have hstart : text.toList <+: (json.encode record).toList := by
      have hsplit : utf8 text ++ (utf8 (json.encode record)).drop written =
          utf8 (json.encode record) := by
        rw [hbytes, take_append_drop]
      obtain ⟨more, hmore, -⟩ := utf8_append_eq hsplit
      rw [hmore, String.toList_append]
      exact prefix_append _ _
    have htrim := trim_starts (hinner ▸ hstart)
    have hshort : trim text ≠ json.encode record := by
      intro heq
      rw [heq] at htrim
      have hsame : text = json.encode record :=
        String.toList_inj.1 (hstart.eq_of_length (le_antisymm hstart.length_le htrim.length_le))
      have hlength := congrArg length hbytes
      rw [hsame, length_take] at hlength
      omega
    have hrefused := hjson.incomplete record _ (htrim.trans hstart) hshort
    rcases hread : json.fromStr (trim text) with error | other
    · rfl
    · exact absurd hread (hrefused other)

theorem recordsOf_cut {record : RunRecord} {written : ℕ}
    (h : written < (Text.utf8 (json.encode record)).length) :
    recordsOf json ((Text.utf8 (json.encode record)).take written) = [] := by
  rw [recordsOf, parseLine_cut hjson h]
  split <;> rfl

theorem newline_not_mem (record : RunRecord) : 10 ∉ Text.utf8 (json.encode record) :=
  fun h ↦ hjson.one_line record (newline_mem_utf8 h)

/-- What an append writes after whole lines is the beginning of a line that stands for nothing, or
the record's line, whether or not its newline was written. -/
theorem Holds.write {lines : List (List UInt8)} (hlines : ∀ line ∈ lines, 10 ∉ line)
    (hread : ∀ line ∈ lines, Readable json line) (record : RunRecord) (written : ℕ) :
    Holds json (Pieces.unlines 10 lines ++ (line json record).take written)
      (lines.flatMap (recordsOf json) ++
        if (line json record).length ≤ written + 1 then [record] else []) := by
  have hlength : (line json record).length = (utf8 (json.encode record)).length + 1 := by
    rw [line, length_append, length_singleton]
  rcases Nat.lt_trichotomy written (utf8 (json.encode record)).length with h | h | h
  · rw [if_neg (by omega), line, take_append_of_le_length h.le, ← recordsOf_cut hjson h]
    exact .mk hlines (fun hmem ↦ newline_not_mem hjson record (mem_of_mem_take hmem)) hread
  · rw [if_pos (by omega), line, h, take_left, ← recordsOf_encode hjson record]
    exact .mk hlines (newline_not_mem hjson record) hread
  · have hmore : unlines 10 lines ++ (line json record).take written =
        unlines 10 (lines ++ [utf8 (json.encode record)]) ++ [] := by
      rw [take_of_length_le (by omega), unlines_append, unlines_singleton,
        append_nil, line]
    have hrecords : lines.flatMap (recordsOf json) ++ [record] =
        (lines ++ [utf8 (json.encode record)]).flatMap (recordsOf json) ++
          recordsOf json [] := by
      rw [flatMap_append, flatMap_singleton, recordsOf_encode hjson, recordsOf_nil,
        append_nil]
    rw [if_pos (by omega), hmore, hrecords]
    refine .mk (fun l hl ↦ ?_) (by simp) (fun l hl ↦ ?_)
    · rcases mem_append.1 hl with hl | hl
      · exact hlines l hl
      · rw [mem_singleton.1 hl]
        exact newline_not_mem hjson record
    · rcases mem_append.1 hl with hl | hl
      · exact hread l hl
      · rw [mem_singleton.1 hl, Readable, parseLine_encode hjson]
        exact .inr rfl

omit hjson

/-- The repaired file holds the same records in whole lines. -/
theorem Holds.heal (hsize : (file.getD []).length ≤ maxRunHistoryBytes)
    (h : Holds json (file.getD []) records) :
    ∃ healed lines, healTornTail json path file = .ok healed ∧
      healed.getD [] = Pieces.unlines 10 lines ∧ (∀ line ∈ lines, 10 ∉ line) ∧
      (∀ line ∈ lines, Readable json line) ∧ lines.flatMap (recordsOf json) = records ∧
      (Pieces.unlines 10 lines).length = repairedLength json (file.getD []) := by
  have hbytes : ∀ bytes, Holds json bytes records → bytes.length ≤ maxRunHistoryBytes →
      ∃ lines, healTornTail json path (some bytes) = .ok (some (unlines 10 lines)) ∧
        (∀ line ∈ lines, 10 ∉ line) ∧ (∀ line ∈ lines, Readable json line) ∧
        lines.flatMap (recordsOf json) = records ∧
        (unlines 10 lines).length = repairedLength json bytes := by
    rintro _ @⟨lines, rest, hlines, hrest, hread⟩ hsize
    exact ⟨healedLines json lines rest, heal_lines hrest hsize, healedLines_whole hlines hrest,
      healedLines_readable hread, healedLines_records, (repairedLength_lines hrest).symm⟩
  obtain ⟨lines, hheal, hlines⟩ := hbytes _ h hsize
  rcases file with _ | bytes
  · refine ⟨none, lines, rfl, ?_, hlines⟩
    have hempty : healTornTail json path (some []) = .ok (some []) := rfl
    rw [Option.getD_none, hempty] at hheal
    exact Option.some.inj (Except.ok.inj hheal)
  · exact ⟨_, lines, hheal, rfl, hlines⟩

/-- **One append** of a file that loads.  It is not refused; what it leaves holds the records and
the one it keeps, within the bound exactly if it writes within it. -/
theorem Holds.append (path : String) (hjson : json.Lawful)
    (hsize : (file.getD []).length ≤ maxRunHistoryBytes) (h : Holds json (file.getD []) records)
    (record : RunRecord) (reach : Reach) :
    (∀ error, (append json path file record reach).1 ≠ .refused error) ∧
      Holds json ((append json path file record reach).2.getD [])
        (records ++ kept json (append json path file record reach).1 record reach) ∧
      (((append json path file record reach).2.getD []).length ≤ maxRunHistoryBytes ↔
        Fits json file record reach) := by
  obtain ⟨healed, lines, hheal, hhealed, hlines, hread, hrecords, hlength⟩ := h.heal hsize
  rw [RunHistory.append, hheal]
  rcases reach with _ | written | _
  · refine ⟨fun error ↦ by simp, ?_, ?_⟩
    · simpa [kept] using h
    · exact ⟨fun _ ↦ trivial, fun _ ↦ hsize⟩
  · refine ⟨fun error ↦ by simp, ?_, ?_⟩
    · have hwrite := Holds.write hjson hlines hread record written
      rwa [hrecords, ← hhealed] at hwrite
    · rw [Fits, ← hlength, Option.getD_some, hhealed, length_append, length_take]
  · refine ⟨fun error ↦ by simp, ?_, ?_⟩
    · have hwrite := Holds.write hjson hlines hread record (line json record).length
      rwa [hrecords, ← hhealed, take_length, if_pos (Nat.le_succ _)] at hwrite
    · rw [Fits, ← hlength, Option.getD_some, hhealed, length_append]

/-- A file that loads is accepted. -/
theorem accepted_iff (hjson : json.Lawful) :
    Accepted json path file records ↔ load json path file = .ok records := by
  refine ⟨And.left, fun h ↦ ⟨h, fun record reach ↦ ?_⟩⟩
  obtain ⟨hsize, hholds⟩ := load_file_iff.1 h
  exact (hholds.append path hjson hsize record reach).1

/-- **A run of appends keeps its history** exactly when each of them writes within the bound. -/
theorem survives_iff (hjson : json.Lawful) (path : String) (file : Option (List UInt8))
    (records : List RunRecord) (hload : load json path file = .ok records)
    (steps : List (RunRecord × Reach)) :
    Survives json path file records steps ↔ AllFit json path file steps := by
  induction steps generalizing file records with
  | nil => exact Iff.rfl
  | cons step rest ih =>
    obtain ⟨record, reach⟩ := step
    obtain ⟨hsize, hholds⟩ := load_file_iff.1 hload
    obtain ⟨-, hafter, hfits⟩ := hholds.append path hjson hsize record reach
    rw [Survives, AllFit]
    rw [accepted_iff hjson, load_file_iff, hfits]
    constructor
    · rintro ⟨⟨hroom, -⟩, hrest⟩
      refine ⟨hroom, (ih _ _ ?_).1 hrest⟩
      exact load_file_iff.2 ⟨hfits.2 hroom, hafter⟩
    · rintro ⟨hroom, hrest⟩
      refine ⟨⟨hroom, hafter⟩, (ih _ _ ?_).2 hrest⟩
      exact load_file_iff.2 ⟨hfits.2 hroom, hafter⟩

/-! ## Room for an append -/

theorem repairedLength_le (json : Json) (bytes : List UInt8) :
    repairedLength json bytes ≤ bytes.length + 1 := by
  rw [repairedLength]
  split
  · exact le_rfl
  · exact (List.rdropWhile_prefix (· != 10) (l := bytes)).length_le.trans (Nat.le_succ _)

/-- There is room for an append that stops in the middle of its line and one that returns. -/
theorem allFit_torn {record : RunRecord} (written : ℕ)
    (h : 2 * (line json record).length < maxRunHistoryBytes) :
    AllFit json path none [(record, .cut written), (record, .whole)] := by
  have hlength : ((line json record).take written).length ≤ (line json record).length :=
    length_take_le' _ _
  refine ⟨?_, ?_, trivial⟩
  · have hroom : repairedLength json [] ≤ 1 := repairedLength_le json []
    show repairedLength json [] + min written (line json record).length ≤ maxRunHistoryBytes
    omega
  · have hroom := repairedLength_le json ((line json record).take written)
    show repairedLength json ((line json record).take written) + (line json record).length ≤
      maxRunHistoryBytes
    omega

theorem length_copies (json : Json) (record : RunRecord) (n : ℕ) :
    (Pieces.unlines 10 (List.replicate n (Text.utf8 (json.encode record)))).length =
      n * (line json record).length := by
  induction n with
  | zero => rw [Nat.zero_mul]; rfl
  | succ n ih =>
    rw [replicate_succ, unlines_cons, length_append, length_cons, ih, line,
      length_append, length_singleton, Nat.succ_mul]
    omega

/-- A history of copies of one record that has no room for another: the append of another returns
and `load` refuses what it leaves. -/
theorem append_over (hjson : json.Lawful) (path : String) (record : RunRecord) {n : ℕ}
    (hfits : n * (line json record).length ≤ maxRunHistoryBytes)
    (hover : maxRunHistoryBytes < n * (line json record).length + (line json record).length) :
    ∃ file, file = Pieces.unlines 10 (List.replicate n (Text.utf8 (json.encode record))) ∧
      load json path (some file) = .ok (List.replicate n record) ∧
      append json path (some file) record .whole = (.ok, some (file ++ line json record)) ∧
      load json path (some (file ++ line json record)) =
        .error (.io ("store: " ++ path ++ ": exceeds " ++ toString maxRunHistoryBytes ++ " bytes"))
      := by
  have hlines : ∀ line ∈ replicate n (utf8 (json.encode record)), 10 ∉ line := by
    intro line hline
    rw [eq_of_mem_replicate hline]
    exact newline_not_mem hjson record
  have hread : ∀ line ∈ replicate n (utf8 (json.encode record)), Readable json line := by
    intro line hline
    rw [eq_of_mem_replicate hline, Readable, parseLine_encode hjson]
    exact .inr rfl
  have hsize := length_copies json record n
  have hheal : healTornTail json path
      (some (unlines 10 (replicate n (utf8 (json.encode record))) ++ [])) =
        .ok (some (unlines 10 (replicate n (utf8 (json.encode record))))) := by
    refine heal_lines not_mem_nil ?_
    rw [append_nil, hsize]
    exact hfits
  refine ⟨_, rfl, ?_, ?_, ?_⟩
  · rw [load_ok_iff, hsize]
    refine ⟨hfits, ?_⟩
    have hholds := Holds.mk hlines not_mem_nil hread
    have hrecords : (replicate n (utf8 (json.encode record))).flatMap (recordsOf json) =
        replicate n record := by
      rw [flatMap_replicate, recordsOf_encode hjson, flatten_replicate_singleton]
    rwa [hrecords, recordsOf_nil, append_nil, append_nil] at hholds
  · rw [append_nil] at hheal
    rw [append, hheal]
    rfl
  · rw [load, readHistory, length_append, hsize, if_pos hover]

end Huntsman.RunHistory
