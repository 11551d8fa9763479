import Huntsman.Lib.Transitions
import Mathlib.Data.List.Sort

/-!
# The scans of a store

A store is a directory; a scan is a directory in it, named by the scan's id, that holds the scan's
row.  `create` counts the directories and then makes one and writes its row, and takes back the
directory when the row cannot be written; `update` replaces a row, `get` reads one and `list` reads
all.

Any number of processes call them.  A call is a number of system calls, and between two of them the
other calls may make any of theirs (`step`); only `create` excludes the other calls of `create` in
its process.  Directories that no scan could be named by are passed over by all of them and left
out.
-/

set_option autoImplicit false

namespace Huntsman.Scans

/-! ## Rows -/

inductive ScanStatus where
  | created | starting | running | abortRequested | aborted | finished | errorFailed
deriving DecidableEq

structure ScanOptions where
  usecase : String := ""
  modules : List String := []
  types : List String := []
  depth : UInt32 := 0
deriving DecidableEq

structure RiskCounts where
  high : ℕ := 0
  medium : ℕ := 0
  low : ℕ := 0
  info : ℕ := 0
deriving DecidableEq

/-- One scan's row. -/
structure ScanRecord where
  formatVersion : UInt32
  id : String
  name : String
  target : String := ""
  targetType : String := ""
  kind : String := ""
  options : ScanOptions := {}
  status : ScanStatus
  created : UInt64
  started : Option UInt64 := none
  ended : Option UInt64 := none
  elements : ℕ := 0
  unique : ℕ := 0
  correlations : RiskCounts := {}
  errors : ℕ := 0
  modulesRun : List String := []
  owner : Option UInt32 := none
  ownerStarted : Option UInt64 := none
deriving DecidableEq

inductive StoreError where
  | notFound (id : String)
  | invalid (text : String)
  | capacity (scans : ℕ)
  | io (text : String)
deriving DecidableEq

def StoreError.text : StoreError → String
  | .notFound id => "no scan " ++ id
  | .invalid text => text
  | .capacity scans => "scan store capacity reached (" ++ toString scans ++
      "); delete finished scans before starting another"
  | .io text => "scan store: " ++ text

/-- An error of reading or writing a file. -/
def fsioError (text : String) : StoreError := .io ("store: " ++ text)

/-- The only format this build reads and writes. -/
def formatVersion : UInt32 := 1

/-- The largest `scan.json`. -/
def maxRowBytes : ℕ := 256 * 1024

/-- The most scans one store lists. -/
def maxScans : ℕ := 4096

def idLen : ℕ := 16

def validId (id : String) : Bool :=
  id.utf8ByteSize == idLen && id.toList.all fun c ↦ c.isDigit || ('a' ≤ c && c ≤ 'f')

/-- The JSON form of a row: its pretty text, unless it cannot be written, and a row read back. -/
structure Json where
  encode : ScanRecord → Except String (List UInt8)
  decode : List UInt8 → Except String ScanRecord

/-- A row is read back as it was written. -/
def Json.ReadsBack (json : Json) : Prop :=
  ∀ record body, json.encode record = .ok body → json.decode body = .ok record

/-- What is listed of a scan whose row cannot be read. -/
def unreadable (id : String) (error : StoreError) : ScanRecord where
  formatVersion := formatVersion
  id := id
  name := "unreadable scan: " ++ error.text
  status := .errorFailed
  created := 0
  errors := 1

/-! ## The disk -/

/-- A file that is or was a row. -/
structure RowFile where
  inode : ℕ
  body : List UInt8
deriving DecidableEq

/-- A scan's directory: the call that made it, the file that is its row, and how many others it
holds. -/
structure Dir where
  maker : Option ℕ := none
  row : Option ℕ := none
  others : ℕ := 0
deriving DecidableEq

/-- The disk, the locks of the processes, and what has happened: which directories were made and
removed, which rows were written, and how often a row could not be read. -/
structure Store where
  path : String
  dirs : List String
  contents : String → Dir
  files : List RowFile
  locks : List ℕ
  made : List String
  removed : List String
  history : List (String × ScanRecord)
  faults : ℕ

namespace Store

def scanDir (st : Store) (id : String) : String := st.path ++ "/" ++ id

def rowPath (st : Store) (id : String) : String := st.scanDir id ++ "/scan.json"

/-- The file that is a scan's row. -/
def rowFile (st : Store) (id : String) : Option ℕ :=
  if id ∈ st.dirs then (st.contents id).row else none

def lock (st : Store) (process : ℕ) : Store := { st with locks := process :: st.locks }

def unlock (st : Store) (process : ℕ) : Store := { st with locks := st.locks.erase process }

def makeDir (st : Store) (maker : Option ℕ) (id : String) : Store :=
  { st with
    dirs := st.dirs ++ [id]
    contents := Function.update st.contents id { maker := maker }
    made := st.made ++ [id] }

def removeDir (st : Store) (id : String) : Store :=
  { st with dirs := st.dirs.erase id, removed := st.removed ++ [id] }

/-- Another file in a scan's directory. -/
def touch (st : Store) (id : String) : Store :=
  { st with
    contents := Function.update st.contents id
      { st.contents id with others := (st.contents id).others + 1 } }

/-- `write_atomic_private` of a row: it makes the directory if there is none. -/
def putRow (st : Store) (record : ScanRecord) (inode : ℕ) (body : List UInt8) : Store :=
  let st := if record.id ∈ st.dirs then st else st.makeDir none record.id
  { st with
    files := st.files ++ [⟨inode, body⟩]
    contents := Function.update st.contents record.id
      { st.contents record.id with row := some st.files.length }
    history := st.history ++ [(record.id, record)] }

def fault (st : Store) (fault : Option String) : Store :=
  if fault.isSome then { st with faults := st.faults + 1 } else st

end Store

/-- The row of a scan that was written last. -/
def lastRow (history : List (String × ScanRecord)) (id : String) : Option ScanRecord :=
  (history.reverse.find? (·.1 = id)).map (·.2)

/-- How often a scan's row was written. -/
def rowWrites (history : List (String × ScanRecord)) (id : String) : ℕ :=
  history.countP (·.1 = id)

/-! ## Reading a directory -/

/-- A directory that is being read: the names that were in it when it was opened, how much had
happened by then, and the names that were returned. -/
structure Listing where
  names : List String
  made : ℕ
  removed : ℕ
  history : ℕ
  faults : ℕ
  seen : List String
deriving DecidableEq

namespace Listing

def start (st : Store) : Listing where
  names := st.dirs
  made := st.made.length
  removed := st.removed.length
  history := st.history.length
  faults := st.faults
  seen := []

def see (l : Listing) (name : String) : Listing := { l with seen := l.seen ++ [name] }

/-- A name that was there at some time since the directory was opened may be returned, once. -/
def May (l : Listing) (st : Store) (name : String) : Prop :=
  (name ∈ l.names ∨ name ∈ st.made.drop l.made) ∧ name ∉ l.seen

/-- A name that was there all the time must be returned. -/
def Exhausted (l : Listing) (st : Store) : Prop :=
  ∀ name ∈ l.names, name ∉ st.removed.drop l.removed → name ∈ l.seen

instance (l : Listing) (st : Store) (name : String) : Decidable (l.May st name) :=
  inferInstanceAs (Decidable (_ ∧ _))

instance (l : Listing) (st : Store) : Decidable (l.Exhausted st) :=
  inferInstanceAs (Decidable (∀ name ∈ l.names, _))

end Listing

/-- What a call meets next. -/
inductive Input where
  /-- Its next system call, which fails with an error, or a file that it creates has this inode. -/
  | go (fault : Option String) (inode : ℕ)
  /-- A name of the directory it reads, which may be `gone` when it is looked at. -/
  | entry (name : String) (gone : Bool)
  /-- The directory has no more names. -/
  | last
deriving DecidableEq

/-! ## Reading a row -/

/-- Where the reading of a row is.  An attempt has the file it has found at the path, and then the
one it has opened. -/
inductive Reading where
  | requiring
  | linking (attempt : ℕ)
  | opening (attempt linked : ℕ)
  | comparing (attempt linked opened : ℕ)
deriving DecidableEq

def maxAttempts : ℕ := 3

def changedWhileOpening : String := "changed between the check and the open"

section Calls

variable (json : Json)

/-- A row as `get` accepts it. -/
def parseRow (path id : String) (body : List UInt8) : Except StoreError ScanRecord :=
  if maxRowBytes < body.length then
    .error (fsioError (path ++ ": exceeds " ++ toString maxRowBytes ++ " bytes"))
  else
    match json.decode body with
    | .error error => .error (.io (path ++ ": " ++ error))
    | .ok record =>
      if record.formatVersion ≠ formatVersion ∨ record.id ≠ id then
        .error (.io (path ++ ": format " ++ toString record.formatVersion ++ " for scan " ++ record.id ++
          " is not this build's format " ++ toString formatVersion ++ " for " ++ id))
      else .ok record

/-- The next step of `get`: how it goes on, or its answer. -/
def Reading.next (st : Store) (id : String) (fault : Option String) :
    Reading → Reading ⊕ Except StoreError ScanRecord
  | .requiring =>
    match fault, st.rowFile id with
    | some error, _ => .inr (.error (.io (st.rowPath id ++ ": " ++ error)))
    | none, none => .inr (.error (.notFound id))
    | none, some _ => .inl (.linking 0)
  | .linking attempt =>
    match fault, st.rowFile id with
    | some error, _ => .inr (.error (fsioError (st.rowPath id ++ ": " ++ error)))
    | none, none => .inr (.error (fsioError (st.rowPath id ++ ": No such file or directory")))
    | none, some linked => .inl (.opening attempt linked)
  | .opening attempt linked =>
    match fault, st.rowFile id with
    | some error, _ => .inr (.error (fsioError (st.rowPath id ++ ": " ++ error)))
    | none, none => .inr (.error (fsioError (st.rowPath id ++ ": No such file or directory")))
    | none, some opened => .inl (.comparing attempt linked opened)
  | .comparing attempt linked opened =>
    match fault, st.files[opened]? with
    | some error, _ => .inr (.error (fsioError (st.rowPath id ++ ": " ++ error)))
    | none, none => .inr (.error (fsioError (st.rowPath id ++ ": No such file or directory")))
    | none, some file =>
      if st.files[linked]?.map RowFile.inode = some file.inode then
        .inr (parseRow json (st.rowPath id) id file.body)
      else if attempt + 1 < maxAttempts then .inl (.linking (attempt + 1))
      else .inr (.error (fsioError (st.rowPath id ++ ": " ++ changedWhileOpening)))

/-! ## Calls -/

/-- How `create` ended: nothing was made, or what was made was taken back, or could not be. -/
inductive Created where
  | ok
  | refused (error : StoreError)
  | rolledBack (error : StoreError)
  | uncleaned (error : StoreError) (dir cleanup : String)
deriving DecidableEq

def Created.answer : Created → Except StoreError Unit
  | .ok => .ok ()
  | .refused error | .rolledBack error => .error error
  | .uncleaned error dir cleanup => .error (.io (error.text ++
      "; failed to remove incomplete scan directory " ++ dir ++ ": " ++ cleanup))

/-- Where a call of `create` is. -/
inductive Creating where
  /-- It waits for `SCAN_CREATE_LOCK`. -/
  | waiting
  | locked
  /-- There is no directory of its id. -/
  | checked
  | counting (listing : Listing) (count : ℕ)
  | counted
  /-- It has made its directory. -/
  | made
  /-- The directory is the user's own. -/
  | secured
  /-- The row could not be written. -/
  | failed (error : StoreError)
  | done (created : Created)
deriving DecidableEq

inductive Updating where
  | waiting
  /-- There is a row. -/
  | checked
  | done (answer : Except StoreError Unit)
deriving DecidableEq

inductive Getting where
  | reading (reading : Reading)
  | done (answer : Except StoreError ScanRecord)
deriving DecidableEq

inductive Listed where
  | waiting
  | reading (listing : Listing) (records : List ScanRecord)
  | row (listing : Listing) (records : List ScanRecord) (name : String) (reading : Reading)
  | done (listing : Listing) (records : List ScanRecord)
  | refused (error : StoreError)
  /-- There are more than `maxScans`. -/
  | tooMany (listing : Listing)
deriving DecidableEq

inductive Call where
  | create (process : ℕ) (record : ScanRecord) (creating : Creating)
  | update (record : ScanRecord) (updating : Updating)
  | get (id : String) (getting : Getting)
  | list (listed : Listed)
deriving DecidableEq

def unsupportedFormat (record : ScanRecord) : StoreError :=
  .invalid ("unsupported scan row format " ++ toString record.formatVersion ++ " (expected " ++
    toString formatVersion ++ ")")

def writeRow (st : Store) (record : ScanRecord) (fault : Option String) (inode : ℕ) :
    Except StoreError Store :=
  match json.encode record with
  | .error error => .error (.invalid error)
  | .ok body =>
    if maxRowBytes < body.length then
      .error (.io (st.rowPath record.id ++ ": exceeds " ++ toString maxRowBytes ++ " bytes (needs " ++
        toString body.length ++ ")"))
    else
      match fault with
      | some error => .error (fsioError (st.rowPath record.id ++ ": " ++ error))
      | none => .ok (st.putRow record inode body)

/-- `create` gives up without having made anything. -/
def refuse (st : Store) (process : ℕ) (error : StoreError) : Option (Store × Creating) :=
  some (st.unlock process, .done (.refused error))

/-- The next step of `create_with_limit`. -/
def Creating.next (st : Store) (call process : ℕ) (record : ScanRecord) (maxScans : ℕ) :
    Creating → Input → Option (Store × Creating)
  | .waiting, .go _ _ => if process ∈ st.locks then none else some (st.lock process, .locked)
  | .locked, .go fault _ =>
    if validId record.id = false then refuse st process (.notFound record.id)
    else if record.id ∈ st.dirs ∧ fault = none then
      refuse st process (.invalid ("scan " ++ record.id ++ " exists"))
    else some (st, .checked)
  | .checked, .go fault _ =>
    match fault with
    | some error => refuse st process (.io (st.path ++ ": " ++ error))
    | none => some (st, .counting (.start st) 0)
  | .counting listing count, .entry name gone =>
    if listing.May st name ∧ (gone = true → name ∉ st.dirs) then
      if gone then some (st, .counting (listing.see name) count)
      else if maxScans ≤ count + 1 then refuse st process (.capacity maxScans)
      else some (st, .counting (listing.see name) (count + 1))
    else none
  | .counting _ _, .go (some error) _ => refuse st process (.io (st.path ++ ": " ++ error))
  | .counting listing _, .last => if listing.Exhausted st then some (st, .counted) else none
  | .counted, .go fault _ =>
    match fault with
    | some error => refuse st process (.io (st.scanDir record.id ++ ": " ++ error))
    | none =>
      if record.id ∈ st.dirs then
        refuse st process (.io (st.scanDir record.id ++ ": File exists"))
      else some (st.makeDir (some call) record.id, .made)
  | .made, .go fault _ =>
    match fault with
    | some error => some (st, .failed (.io (st.scanDir record.id ++ ": " ++ error)))
    | none => some (st, .secured)
  | .secured, .go fault inode =>
    match writeRow json st record fault inode with
    | .ok st => some (st.unlock process, .done .ok)
    | .error error => some (st, .failed error)
  | .failed error, .go fault _ =>
    match fault with
    | some cleanup =>
      some (st.unlock process, .done (.uncleaned error (st.scanDir record.id) cleanup))
    | none =>
      if record.id ∉ st.dirs then
        some (st.unlock process,
          .done (.uncleaned error (st.scanDir record.id) "No such file or directory"))
      else if (st.contents record.id).row = none ∧ (st.contents record.id).others = 0 then
        some ((st.removeDir record.id).unlock process, .done (.rolledBack error))
      else some (st.unlock process,
        .done (.uncleaned error (st.scanDir record.id) "Directory not empty"))
  | _, _ => none

/-- The next step of `update`. -/
def Updating.next (st : Store) (record : ScanRecord) : Updating → Input → Option (Store × Updating)
  | .waiting, .go fault _ =>
    match fault, st.rowFile record.id with
    | some error, _ => some (st, .done (.error (.io (st.rowPath record.id ++ ": " ++ error))))
    | none, none => some (st, .done (.error (.notFound record.id)))
    | none, some _ => some (st, .checked)
  | .checked, .go fault inode =>
    match writeRow json st record fault inode with
    | .ok st => some (st, .done (.ok ()))
    | .error error => some (st, .done (.error error))
  | _, _ => none

/-- The next step of `get`. -/
def Getting.next (st : Store) (id : String) : Getting → Input → Option (Store × Getting)
  | .reading r, .go fault _ =>
    match r.next json st id fault with
    | .inl r => some (st, .reading r)
    | .inr answer => some (st.fault fault, .done answer)
  | _, _ => none

/-- Newest first. -/
def newestFirst (a b : ScanRecord) : Bool :=
  b.created < a.created || (a.created == b.created && a.id ≤ b.id)

/-- The next step of `list`. -/
def Listed.next (st : Store) : Listed → Input → Option (Store × Listed)
  | .waiting, .go fault _ =>
    match fault with
    | some error => some (st, .refused (.io (st.path ++ ": " ++ error)))
    | none => some (st, .reading (.start st) [])
  | .reading listing records, .entry name gone =>
    if listing.May st name ∧ (gone = true → name ∉ st.dirs) then
      if gone then some (st, .reading (listing.see name) records)
      else if records.length = maxScans then some (st, .tooMany (listing.see name))
      else some (st, .row (listing.see name) records name .requiring)
    else none
  | .reading _ _, .go (some error) _ => some (st, .refused (.io (st.path ++ ": " ++ error)))
  | .reading listing records, .last =>
    if listing.Exhausted st then some (st, .done listing (records.mergeSort newestFirst)) else none
  | .row listing records name r, .go fault _ =>
    match r.next json st name fault with
    | .inl r => some (st, .row listing records name r)
    | .inr (.ok record) => some (st, .reading listing (records ++ [record]))
    | .inr (.error error) =>
      some (st.fault fault, .reading listing (records ++ [unreadable name error]))
  | _, _ => none

/-- The next step of a call. -/
def Call.next (st : Store) (call : ℕ) (input : Input) : Call → Option (Store × Call)
  | .create process record creating =>
    (creating.next json st call process record maxScans input).map
      fun (st, creating) ↦ (st, .create process record creating)
  | .update record updating =>
    (updating.next json st record input).map fun (st, updating) ↦ (st, .update record updating)
  | .get id getting => (getting.next json st id input).map fun (st, getting) ↦ (st, .get id getting)
  | .list listed => (listed.next json st input).map fun (st, listed) ↦ (st, .list listed)

/-! ## Interleavings -/

structure State where
  store : Store
  calls : List Call

inductive Action where
  | create (process : ℕ) (record : ScanRecord)
  | update (record : ScanRecord)
  | get (id : String)
  | list
  | next (call : ℕ) (input : Input)
  /-- Another writer leaves a file in a scan's directory. -/
  | touch (id : String)
deriving DecidableEq

def step (s : State) : Action → Option State
  | .create process record => some { s with
      calls := s.calls ++ [.create process record <|
        if record.formatVersion = formatVersion then .waiting
        else .done (.refused (unsupportedFormat record))] }
  | .update record => some { s with
      calls := s.calls ++ [.update record <|
        if record.formatVersion = formatVersion then .waiting
        else .done (.error (unsupportedFormat record))] }
  | .get id => some { s with calls := s.calls ++ [.get id (.reading .requiring)] }
  | .list => some { s with calls := s.calls ++ [.list .waiting] }
  | .next call input => do
    let c ← s.calls[call]?
    let (store, c) ← c.next json s.store call input
    some { store, calls := s.calls.set call c }
  | .touch id => if id ∈ s.store.dirs then some { s with store := s.store.touch id } else none

/-- A store that no call is using: its directories, and what is in them. -/
def initial (path : String) (dirs : List String) (contents : String → Dir) (files : List RowFile) :
    State where
  store := {
    path, dirs, contents, files
    locks := []
    made := []
    removed := []
    history := []
    faults := 0 }
  calls := []

end Calls

end Huntsman.Scans
