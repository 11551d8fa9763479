import Huntsman.Text

/-!
# A scan's log

A registered scan has a log file of bounded size and, once that was full, an overflow file.
`appendLog` adds an entry to one of them and `log` reads both back.

The two files are byte lists, `none` where a file does not exist.  The JSON form of an entry is a
parameter (`Json`), and what the disk does in a call is an input (`Disk`): either file may fail to
open, and a write that fails may have written some of its bytes first, all of them even when only
the synchronisation after it failed.
-/

set_option autoImplicit false

namespace Huntsman.ScanLog

/-- The largest results, and the most that is read back of a log. -/
def maxResultsBytes : ℕ := 64 * 1024 * 1024

/-- The largest `log.jsonl`. -/
def maxLogBytes : ℕ := 4 * 1024 * 1024

def logFile : String := "log.jsonl"

def logOverflowFile : String := "log-overflow.jsonl"

inductive StoreError where
  | notFound (id : String)
  | io (text : String)
deriving DecidableEq

inductive LogLevel where
  | info | warning | error
deriving DecidableEq

/-- One line of a scan's log. -/
structure LogEntry where
  time : UInt64
  component : String
  level : LogLevel
  message : String
deriving DecidableEq

/-- The JSON form of an entry: its compact text, and an entry read back from text and from bytes. -/
structure Json where
  encode : LogEntry → String
  fromStr : String → Except String LogEntry
  fromSlice : List UInt8 → Option LogEntry

/-- What a durable append did: all of it, or only its first bytes before it failed. -/
inductive Write where
  | whole
  | cut (written : ℕ) (error : String)
deriving DecidableEq

/-- What the disk does in one call. -/
structure Disk where
  /-- Why the log cannot be opened. -/
  openLog : Option String
  /-- Why the overflow log cannot be opened. -/
  openOverflow : Option String
  /-- The append of the entry to the log. -/
  writeLog : Write
  /-- The append of the entry to the overflow log. -/
  writeOverflow : Write
  /-- The append of the marker to the log. -/
  writeMarker : Write
deriving DecidableEq

/-- A scan's directory: where it is, whether it holds the scan's row, and its two logs. -/
structure ScanDir where
  id : String
  dir : String
  registered : Bool
  primary : Option (List UInt8)
  overflow : Option (List UInt8)
deriving DecidableEq

namespace ScanDir

def path (s : ScanDir) : String := s.dir ++ "/" ++ logFile

def overflowPath (s : ScanDir) : String := s.dir ++ "/" ++ logOverflowFile

/-- The log's bytes, none of a file that does not exist. -/
def primaryBytes (s : ScanDir) : List UInt8 := s.primary.getD []

def overflowBytes (s : ScanDir) : List UInt8 := s.overflow.getD []

end ScanDir

def markerMessage : String :=
  "log full at " ++ toString maxLogBytes ++ " bytes; later entries archived in " ++ logOverflowFile

/-- The marker of builds that dropped later entries. -/
def oldMarkerMessage : String :=
  "log full at " ++ toString maxLogBytes ++ " bytes; later entries are not kept"

def marker (time : UInt64) : LogEntry := ⟨time, "huntsman", .warning, markerMessage⟩

/-- Whether an entry is a marker, this build's or an older one's. -/
def isMarker (e : LogEntry) : Bool :=
  e.component == "huntsman" && e.level == .warning &&
    (e.message == oldMarkerMessage || e.message == markerMessage)

/-- `slice::split` at newlines. -/
def splitLines : List UInt8 → List UInt8 → List (List UInt8)
  | piece, [] => [piece.reverse]
  | piece, b :: rest =>
    if b = 10 then piece.reverse :: splitLines [] rest else splitLines (b :: piece) rest

section Store

variable (json : Json)

def logIsFull (bytes : List UInt8) : Bool :=
  if maxLogBytes < bytes.length then false
  else (splitLines [] bytes).any fun line ↦ (json.fromSlice line).any isMarker

/-- `append_durable`: the answer, and the file afterwards. -/
def appendDurable (path : String) (w : Write) (file bytes : List UInt8) :
    Except StoreError Unit × List UInt8 :=
  match w with
  | .whole => (.ok (), file ++ bytes)
  | .cut written error => (.error (.io (path ++ ": " ++ error)), file ++ bytes.take written)

/-- An entry's line in a log. -/
def line (e : LogEntry) : List UInt8 := Text.utf8 (json.encode e) ++ [10]

/-- `to_bounded_json`: the text, unless it is over the limit. -/
def boundedJson (e : LogEntry) (limit : ℕ) : Except ℕ (List UInt8) :=
  let bytes := Text.utf8 (json.encode e)
  if limit < bytes.length then .error bytes.length else .ok bytes

/-- Whether an entry goes to the log: there is room for it and for the marker after it. -/
def fits (s : ScanDir) (e : LogEntry) : Bool :=
  match boundedJson json e maxLogBytes with
  | .error _ => false
  | .ok bytes =>
    s.primaryBytes.length + (bytes ++ [10]).length + (line json (marker e.time)).length ≤ maxLogBytes

/-- The marker, after an entry went to the overflow log. -/
def addMarker (disk : Disk) (e : LogEntry) (hadOverflow : Bool) (s : ScanDir) :
    Except StoreError Unit × ScanDir :=
  let markerLine := line json (marker e.time)
  if hadOverflow = false ∧ s.primaryBytes.length + markerLine.length ≤ maxLogBytes ∧
      logIsFull json s.primaryBytes = false then
    let (answer, primary) := appendDurable s.path disk.writeMarker s.primaryBytes markerLine
    (answer, { s with primary := some primary })
  else (.ok (), s)

/-- An entry that goes to the overflow log. -/
def archive (disk : Disk) (e : LogEntry) (s : ScanDir) : Except StoreError Unit × ScanDir :=
  match boundedJson json e maxResultsBytes with
  | .error required =>
    (.error (.io (s.overflowPath ++ ": log entry requires " ++ toString required ++
      " bytes, exceeding " ++ toString maxResultsBytes ++ "; not saved")), s)
  | .ok archived =>
    match disk.openOverflow with
    | some error => (.error (.io (s.overflowPath ++ ": " ++ error)), s)
    | none =>
      let (answer, overflow) :=
        appendDurable s.overflowPath disk.writeOverflow s.overflowBytes (archived ++ [10])
      let s' := { s with overflow := some overflow }
      match answer with
      | .error error => (.error error, s')
      | .ok () => addMarker json disk e s.overflow.isSome s'

def appendLog (disk : Disk) (e : LogEntry) (s : ScanDir) : Except StoreError Unit × ScanDir :=
  if s.registered = false then (.error (.notFound s.id), s)
  else
    match disk.openLog with
    | some error => (.error (.io (s.path ++ ": " ++ error)), s)
    | none =>
      let s := { s with primary := some s.primaryBytes }
      if s.overflow = none ∧ fits json s e then
        let (answer, primary) := appendDurable s.path disk.writeLog s.primaryBytes (line json e)
        (answer, { s with primary := some primary })
      else archive json disk e s

/-- `read_bounded` of a file that exists. -/
def readBounded (path : String) (bytes : List UInt8) (max : ℕ) :
    Except StoreError (List UInt8) :=
  if max < bytes.length then
    .error (.io ("store: " ++ path ++ ": exceeds " ++ toString max ++ " bytes"))
  else .ok bytes

def readPrimary (s : ScanDir) : Except StoreError (List UInt8) :=
  match s.primary with
  | none => .ok []
  | some bytes => readBounded s.path bytes maxLogBytes

/-- The overflow log after the log's bytes, a newline between them where the log ends in none. -/
def readOverflow (s : ScanDir) (bytes : List UInt8) : Except StoreError (List UInt8) :=
  match s.overflow with
  | none => .ok bytes
  | some overflow => do
    let extra ← readBounded s.overflowPath overflow (maxResultsBytes - bytes.length)
    return (if bytes = [] ∨ bytes.getLast? = some 10 then bytes else bytes ++ [10]) ++ extra

/-- The bytes of both logs. -/
def readLogs (s : ScanDir) : Except StoreError (List UInt8) := do
  let bytes ← readPrimary s
  readOverflow s bytes

/-- The entry on a line, an error entry where it does not parse. -/
def readLine (numbered : String × ℕ) : LogEntry :=
  match json.fromStr numbered.1 with
  | .ok e => e
  | .error error =>
    ⟨0, "huntsman", .error,
      "log line " ++ toString (numbered.2 + 1) ++ " does not parse: " ++ error⟩

/-- `ScanStore::log`. -/
def log (s : ScanDir) : Except StoreError (List LogEntry) :=
  if s.registered = false then .error (.notFound s.id)
  else
    match readLogs s with
    | .error e => .error e
    | .ok bytes => .ok
      (((Text.lines (Text.fromUtf8Lossy bytes)).zipIdx.filter fun numbered ↦
        Text.trim numbered.1 != "").map (readLine json))

/-! ## Runs -/

/-- Calls one after the other: the directory they leave, and the entries whose append answered
`Ok`. -/
def appendAll : ScanDir → List (Disk × LogEntry) → ScanDir × List LogEntry
  | s, [] => (s, [])
  | s, (disk, e) :: rest =>
    let (answer, s') := appendLog json disk e s
    let (last, saved) := appendAll s' rest
    match answer with
    | .ok () => (last, e :: saved)
    | .error _ => (last, saved)

end Store

/-- A scan just registered. -/
def ScanDir.create (id dir : String) : ScanDir := ⟨id, dir, true, none, none⟩

end Huntsman.ScanLog
