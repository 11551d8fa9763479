import Huntsman.Lib.Bytes
import Huntsman.Lib.Pieces
import Huntsman.Lib.Refusal
import Huntsman.Text

/-!
# An APK's archive

An APK is a ZIP archive with, before its central directory, an optional signing block.  `walk` finds
the end record, follows the central directory to each member's local header and payload, and reads
the signing block's schemes.

Positions are naturals: what a `usize` cannot hold is past the end of any archive, and the reader
refuses it either way.
-/

set_option autoImplicit false

namespace Huntsman.Apk

open Bytes List

inductive Error where
  | invalidValue (reason : String)
deriving DecidableEq

/-- What `ok_or_else` makes of a missing value. -/
def orInvalid {α : Type} (reason : String) : Option α → Except Error α
  | none => .error (.invalidValue reason)
  | some a => .ok a

def maxEntries : ℕ := 8192

def maxListed : ℕ := 32

def maxNativeLibsRead : ℕ := 64

def eocdSignature : List UInt8 := [0x50, 0x4B, 5, 6]

def centralSignature : List UInt8 := [0x50, 0x4B, 1, 2]

def localSignature : List UInt8 := [0x50, 0x4B, 3, 4]

/-- `APK Sig Block 42`. -/
def apkSigMagic : List UInt8 :=
  [0x41, 0x50, 0x4B, 0x20, 0x53, 0x69, 0x67, 0x20, 0x42, 0x6C, 0x6F, 0x63, 0x6B, 0x20, 0x34, 0x32]

/-- The bytes of a range given by its start and its length. -/
def checkedRange (data : List UInt8) (pos size : ℕ) : Option (List UInt8) :=
  slice data pos (pos + size)

def le16 (data : List UInt8) (pos : ℕ) : Option UInt16 :=
  match slice data pos (pos + 2) with
  | some [a, b] => some (word16 b a)
  | _ => none

def le32 (data : List UInt8) (pos : ℕ) : Option UInt32 :=
  match slice data pos (pos + 4) with
  | some [a, b, c, d] => some (word32 d c b a)
  | _ => none

def le64 (data : List UInt8) (pos : ℕ) : Option UInt64 :=
  match le32 data pos, le32 data (pos + 4) with
  | some low, some high => some (UInt64.ofNat (2 ^ 32 * high.toNat + low.toNat))
  | _, _ => none

/-! ## The end record -/

/-- Whether an end record starts at `pos` whose comment ends the data. -/
def isEnd (data : List UInt8) (pos : ℕ) : Bool :=
  checkedRange data pos 4 == some eocdSignature &&
    (le16 data (pos + 20)).any fun len ↦ len.toNat == data.length - pos - 22

/-- The last complete end record. -/
def eocd (data : List UInt8) : Except Error ℕ :=
  if data.length < 22 then .error (.invalidValue "APK is too short for a ZIP end record")
  else
    let start := data.length - (22 + 65535)
    match (List.range' start (data.length - 22 + 1 - start)).reverse.find? (isEnd data) with
    | some pos => .ok pos
    | none => .error (.invalidValue "missing complete ZIP end record")

/-- How many entries the directory has, where it starts and where it ends. -/
def directoryBounds (data : List UInt8) : Except Error (ℕ × ℕ × ℕ) := do
  let fin ← eocd data
  Except.ensure (le16 data (fin + 4) = some 0 ∧ le16 data (fin + 6) = some 0)
    (Error.invalidValue "multi-disk ZIP archives are unsupported")
  let count ← orInvalid "missing ZIP count" (le16 data (fin + 10))
  Except.ensure (le16 data (fin + 8) = some count)
    (Error.invalidValue "inconsistent ZIP entry counts")
  let size ← orInvalid "missing ZIP directory size" (le32 data (fin + 12))
  let start ← orInvalid "missing ZIP directory offset" (le32 data (fin + 16))
  Except.ensure (¬ (count.toNat = 2 ^ 16 - 1 ∨ size.toNat = 2 ^ 32 - 1 ∨ start.toNat = 2 ^ 32 - 1))
    (Error.invalidValue "ZIP64 APK archives are unsupported")
  Except.ensure (¬ (count.toNat = 0 ∨ maxEntries < count.toNat))
    (Error.invalidValue "empty APK or APK exceeds 8192 ZIP entries")
  Except.ensure (start.toNat + size.toNat ≤ fin)
    (Error.invalidValue "ZIP directory extends beyond end record")
  return (count.toNat, start.toNat, start.toNat + size.toNat)

/-! ## The signing block -/

/-- A scheme of the signing block: its label and its value. -/
abbrev Signing := String × List UInt8

structure SigningBlock where
  present : Bool
  schemes : List String
  duplicates : List String
  values : List Signing
  start : Option ℕ
deriving DecidableEq

def SigningBlock.default : SigningBlock := ⟨false, [], [], [], none⟩

def schemeOf (id : UInt32) : Option String :=
  if id = 0x7109871a then some "v2"
  else if id = 0xf05368c0 then some "v3"
  else if id = 0x1b93ad61 then some "v3.1"
  else none

/-- The block with one more pair: a scheme's value counts only the first time. -/
def SigningBlock.insert (found : SigningBlock) (scheme : String) (value : List UInt8) :
    SigningBlock :=
  if scheme ∈ found.schemes then { found with duplicates := found.duplicates.insert scheme }
  else { found with schemes := found.schemes ++ [scheme], values := found.values ++ [(scheme, value)] }

/-- The pairs from `pos` up to the footer, `none` where one of them is malformed. -/
def signingPairs (data : List UInt8) (footer pos : ℕ) (found : SigningBlock) :
    Option (SigningBlock × ℕ) :=
  if pos < footer then
    match le64 data pos with
    | none => none
    | some len =>
      if len.toNat < 4 ∨ footer < pos + 8 + len.toNat then none
      else
        match le32 data (pos + 8), slice data (pos + 12) (pos + 8 + len.toNat) with
        | some id, some value =>
          signingPairs data footer (pos + 8 + len.toNat)
            (match schemeOf id with
              | some scheme => found.insert scheme value
              | none => found)
        | _, _ => none
  else some (found, pos)
termination_by footer - pos

/-- Where the signing block before the directory starts, if its footer and its two sizes agree. -/
def signingStart (data : List UInt8) (central : ℕ) : Option ℕ :=
  if central < 24 then none
  else if checkedRange data (central - 16) 16 ≠ some apkSigMagic then none
  else
    match le64 data (central - 24) with
    | none => none
    | some size =>
      if central < size.toNat + 8 then none
      else
        let start := central - (size.toNat + 8)
        if size.toNat < 24 ∨ le64 data start ≠ some size ∨ central - 24 < start + 8 then none
        else some start

def signingBlock (data : List UInt8) (central : ℕ) : SigningBlock :=
  match signingStart data central with
  | none => .default
  | some start =>
    match signingPairs data (central - 24) (start + 8) .default with
    | none => .default
    | some (found, pos) =>
      let present := pos == central - 24
      { found with
        present := present
        start := if present then some start else none
        -- a repeated scheme is ambiguous, and neither copy counts
        values := found.values.filter fun value ↦ value.1 ∉ found.duplicates }

/-! ## Members -/

/-- A member, by its central and local headers. -/
structure Member where
  name : String
  flags : UInt16
  method : UInt16
  crc : UInt32
  size : ℕ
  next : ℕ
  payloadStart : ℕ
  payloadLen : ℕ
deriving DecidableEq

def member (data : List UInt8) (pos dirStart dirEnd : ℕ) : Except Error Member := do
  Except.ensure (checkedRange data pos 4 = some centralSignature)
    (Error.invalidValue "invalid ZIP central directory entry")
  let flags ← orInvalid "truncated ZIP flags" (le16 data (pos + 8))
  let method ← orInvalid "truncated ZIP compression" (le16 data (pos + 10))
  let crc ← orInvalid "missing ZIP CRC-32" (le32 data (pos + 16))
  let packed ← orInvalid "missing compressed size" (le32 data (pos + 20))
  let size ← orInvalid "missing uncompressed size" (le32 data (pos + 24))
  let nameLen ← orInvalid "missing ZIP name size" (le16 data (pos + 28))
  let extra ← orInvalid "missing ZIP extra size" (le16 data (pos + 30))
  let comment ← orInvalid "missing ZIP comment size" (le16 data (pos + 32))
  let localAt ← orInvalid "missing local offset" (le32 data (pos + 42))
  let raw ← orInvalid "truncated ZIP entry name" (checkedRange data (pos + 46) nameLen.toNat)
  let name ← orInvalid "non UTF-8 APK entry name" (Text.fromUtf8 raw)
  let next := pos + 46 + nameLen.toNat + extra.toNat + comment.toNat
  Except.ensure (next ≤ dirEnd) (Error.invalidValue "ZIP entry exceeds directory boundary")
  Except.ensure (checkedRange data localAt.toNat 4 = some localSignature)
    (Error.invalidValue "ZIP entry has invalid local header")
  let localNameLen ← orInvalid "missing local name" (le16 data (localAt.toNat + 26))
  let localExtraLen ← orInvalid "missing local extra" (le16 data (localAt.toNat + 28))
  Except.ensure (checkedRange data (localAt.toNat + 30) localNameLen.toNat = some raw)
    (Error.invalidValue "central/local ZIP entry names disagree")
  let payloadStart := localAt.toNat + 30 + localNameLen.toNat + localExtraLen.toNat
  Except.ensure (payloadStart + packed.toNat ≤ dirStart)
    (Error.invalidValue "ZIP payload exceeds start of central directory")
  return ⟨name, flags, method, crc, size.toNat, next, payloadStart, packed.toNat⟩

/-! ## Names -/

/-- `Path::file_name`. -/
def fileName (path : String) : Option String :=
  match ((Text.split "/" path).filter fun part ↦ part != "" && part != ".").getLast? with
  | none => none
  | some part => if part = ".." then none else some part

/-- `Path::extension`. -/
def extension (path : String) : Option String :=
  match fileName path with
  | none => none
  | some file =>
    match (Text.rmatchIndices file ".").head? with
    | none => none
    | some dot => if dot = 0 then none else some (Text.after file (dot + 1))

/-- `str::split_once` for one character. -/
def splitOnce (c : Char) (s : String) : Option (String × String) :=
  (Pieces.splitOnce c s.toList).map fun parts ↦ (String.ofList parts.1, String.ofList parts.2)

def dexName (name : String) : Bool :=
  match (Text.stripPrefix name "classes").bind fun s ↦ Text.stripSuffix s ".dex" with
  | none => false
  | some digits => digits.toList.all Char.isDigit

def suspicious (name : String) : Bool :=
  Text.startsWith name "/" || Text.contains name "\\" || Text.contains name "\x00" ||
    (Text.split "/" name).any (· == "..")

def resourceXmlName (name : String) : Bool :=
  Text.startsWith name "res/" && extension name == some "xml" && !suspicious name

def nativeAbi (name : String) : Option String :=
  match (Text.stripPrefix name "lib/").bind (splitOnce '/') with
  | none => none
  | some (abi, filename) =>
    if abi ≠ "" ∧ Text.contains filename "/" = false ∧ extension filename = some "so" then some abi
    else none

def isV1Certificate (name : String) : Bool := [".RSA", ".DSA", ".EC"].any (Text.endsWith name)

def isV1SigningArtifact (name : String) : Bool :=
  match Text.stripPrefix name "META-INF/" with
  | none => false
  | some filename =>
    !Text.contains filename "/" && [".RSA", ".DSA", ".EC", ".SF"].any (Text.endsWith filename)

/-! ## The walk -/

/-- What is found in an archive: its members, those that are read, and its signing block. -/
structure Archive where
  members : List Member
  manifest : Option Member
  resources : Option Member
  resourceXml : List Member
  dex : List Member
  v1 : List Member
  native : List (String × Member)
  signingValues : List Signing
  signingStart : Option ℕ
  duplicates : List String
  directoryStart : ℕ
deriving DecidableEq

/-- `n` entries of the directory from `pos` on, and where they end. -/
def readEntries (data : List UInt8) (dirStart dirEnd : ℕ) : ℕ → ℕ → Except Error (List Member × ℕ)
  | 0, pos => .ok ([], pos)
  | n + 1, pos => do
    let entry ← member data pos dirStart dirEnd
    let rest ← readEntries data dirStart dirEnd n entry.next
    return (entry :: rest.1, rest.2)

/-- The archive of `members`: each of the members that are read is known by its name. -/
def archiveOf (members : List Member) (sig : SigningBlock) (dirStart : ℕ) : Archive where
  members := members
  manifest := members.find? fun m ↦ m.name == "AndroidManifest.xml"
  resources := members.find? fun m ↦ m.name == "resources.arsc"
  resourceXml := members.filter fun m ↦ m.name != "resources.arsc" && resourceXmlName m.name
  dex := members.filter fun m ↦ dexName m.name
  v1 := (members.filter fun m ↦ isV1SigningArtifact m.name && isV1Certificate m.name).take maxListed
  native := (members.filterMap fun m ↦ (nativeAbi m.name).map fun abi ↦ (abi, m)).take
    maxNativeLibsRead
  signingValues := if sig.present then sig.values else []
  signingStart := if sig.present then sig.start else none
  duplicates := if sig.present then sig.duplicates else []
  directoryStart := dirStart

def walk (data : List UInt8) : Except Error Archive := do
  let bounds ← directoryBounds data
  let entries ← readEntries data bounds.2.1 bounds.2.2 bounds.1 bounds.2.1
  Except.ensure (entries.2 = bounds.2.2)
    (Error.invalidValue "ZIP entry count does not match directory size")
  Except.ensure (entries.1.any (·.name == "AndroidManifest.xml"))
    (Error.invalidValue "archive has no AndroidManifest.xml")
  return archiveOf entries.1 (signingBlock data bounds.2.1) bounds.2.1

/-! ## A member's bytes -/

def Member.payload (data : List UInt8) (m : Member) : List UInt8 :=
  (data.drop m.payloadStart).take m.payloadLen

def maxInflatedBytes : ℕ := 256 * 1024 * 1024

/-- What a member is read as, with how its method is out of the ordinary, and what is left of the
budget.  Inflating and the checksum are `inflate` and `crc32`. -/
def readMember (inflate : List UInt8 → ℕ → Except String (List UInt8))
    (crc32 : List UInt8 → UInt32) (data : List UInt8) (m : Member) (limit budget : ℕ) :
    Except String (List UInt8 × Option String) × ℕ :=
  if m.flags.toNat % 2 = 1 then (.error (m.name ++ " is encrypted"), budget)
  else if limit < m.size then
    (.error (m.name ++ " inflates to " ++ toString m.size ++ " bytes, over its " ++
      toString limit ++ "-byte limit"), budget)
  else if budget < m.size then
    (.error (m.name ++ " would pass the " ++ toString maxInflatedBytes ++
      "-byte budget for one APK"), budget)
  else
    let budget :=
      if m.method = 8 ∨ m.method = 0 ∨ m.payloadLen = m.size then budget - m.size else budget
    let raw := m.payload data
    let bytes : Except String (List UInt8 × Option String) :=
      if m.method = 8 then
        match inflate raw m.size with
        | .ok bytes => .ok (bytes, none)
        | .error status => .error (m.name ++ " does not inflate: " ++ status)
      else if m.method = 0 then .ok (raw, none)
      else if m.payloadLen = m.size then
        .ok (raw, some (m.name ++ " declares compression method " ++ toString m.method ++
          ", read as stored as Android does"))
      else .error (m.name ++ " uses unsupported compression method " ++ toString m.method)
    match bytes with
    | .error e => (.error e, budget)
    | .ok (bytes, quirk) =>
      if bytes.length ≠ m.size then
        (.error (m.name ++ " is not the size its ZIP entry states"), budget)
      else if crc32 bytes ≠ m.crc then (.error (m.name ++ " fails its ZIP CRC-32 check"), budget)
      else (.ok (bytes, quirk), budget)

/-! ## What the readers find -/

section Slice

variable {data bytes : List UInt8} {a b pos : ℕ} (h : slice data a b = some bytes)

include h

theorem checkedRange_slice {size : ℕ} (hpos : pos + size ≤ bytes.length) :
    checkedRange data (a + pos) size = checkedRange bytes pos size := by
  rw [checkedRange, Nat.add_assoc, slice_slice h hpos]
  rfl

theorem le16_slice (hpos : pos + 2 ≤ bytes.length) : le16 data (a + pos) = le16 bytes pos := by
  rw [le16, Nat.add_assoc, slice_slice h hpos]
  rfl

theorem le32_slice (hpos : pos + 4 ≤ bytes.length) : le32 data (a + pos) = le32 bytes pos := by
  rw [le32, Nat.add_assoc, slice_slice h hpos]
  rfl

end Slice

theorem orInvalid_ok {α : Type} {reason : String} {o : Option α} {a : α} :
    orInvalid reason o = .ok a ↔ o = some a := by
  cases o <;> simp [orInvalid]

/-- The end record that is found is complete: its comment ends the data. -/
theorem eocd_spec {data : List UInt8} {fin : ℕ} (h : eocd data = .ok fin) :
    checkedRange data fin 4 = some eocdSignature ∧ fin + 22 ≤ data.length ∧
      data.length ≤ fin + 22 + 65535 := by
  unfold eocd at h
  split at h
  · simp at h
  · simp only at h
    split at h
    · rename_i pos hfind
      cases h
      have hend := find?_some hfind
      have hmem := mem_of_find?_eq_some hfind
      rw [mem_reverse, mem_range'_1] at hmem
      rw [isEnd, Bool.and_eq_true, beq_iff_eq] at hend
      refine ⟨hend.1, by omega, by omega⟩
    · simp at h

/-- What the two headers of a member say. -/
structure Headers where
  packed : UInt32
  size : UInt32
  nameLen : UInt16
  extra : UInt16
  comment : UInt16
  localAt : UInt32
  localExtra : UInt16
  raw : List UInt8

/-- A member and the headers it was read from. -/
structure MemberAt (data : List UInt8) (pos dirStart dirEnd : ℕ) (m : Member) (e : Headers) :
    Prop where
  flags : le16 data (pos + 8) = some m.flags
  method : le16 data (pos + 10) = some m.method
  crc : le32 data (pos + 16) = some m.crc
  packed : le32 data (pos + 20) = some e.packed
  size : le32 data (pos + 24) = some e.size
  nameLen : le16 data (pos + 28) = some e.nameLen
  extra : le16 data (pos + 30) = some e.extra
  comment : le16 data (pos + 32) = some e.comment
  localAt : le32 data (pos + 42) = some e.localAt
  raw : checkedRange data (pos + 46) e.nameLen.toNat = some e.raw
  name : Text.fromUtf8 e.raw = some m.name
  next_le : m.next ≤ dirEnd
  localExtra : le16 data (e.localAt.toNat + 28) = some e.localExtra
  localName : checkedRange data (e.localAt.toNat + 30) e.nameLen.toNat = some e.raw
  payload_le : m.payloadStart + m.payloadLen ≤ dirStart
  next_eq : m.next = pos + 46 + e.nameLen.toNat + e.extra.toNat + e.comment.toNat
  payloadStart_eq : m.payloadStart = e.localAt.toNat + 30 + e.nameLen.toNat + e.localExtra.toNat
  payloadLen_eq : m.payloadLen = e.packed.toNat
  size_eq : m.size = e.size.toNat

/-- **What `member` checks**: in particular a local header has a name as long as the entry's. -/
theorem member_spec {data : List UInt8} {pos dirStart dirEnd : ℕ} {m : Member}
    (h : member data pos dirStart dirEnd = .ok m) :
    ∃ e, MemberAt data pos dirStart dirEnd m e := by
  simp only [member, Except.bind_ok, Except.ensure_ok, orInvalid_ok] at h
  obtain ⟨-, -, flags, hflags, method, hmethod, crc, hcrc, packed, hpacked, size, hsize, nameLen,
    hnameLen, extra, hextra, comment, hcomment, localAt, hlocalAt, raw, hraw, name, hname, -, hnext,
    -, hlocal, localNameLen, hlocalNameLen, localExtra, hlocalExtra, -, hlocalName, -, hpayload,
    hm⟩ := h
  cases hm
  have hlen : localNameLen = nameLen := by
    have hfirst := length_of_slice hraw
    have hsecond := length_of_slice hlocalName
    apply UInt16.toNat_inj.1
    omega
  subst hlen
  exact ⟨⟨packed, size, localNameLen, extra, comment, localAt, localExtra, raw⟩, hflags, hmethod,
    hcrc, hpacked, hsize, hnameLen, hextra, hcomment, hlocalAt, hraw, hname, hnext, hlocalExtra,
    hlocalName, hpayload, rfl, rfl, rfl, rfl⟩

/-- The end record and the directory that a walk reads. -/
structure BoundsAt (data : List UInt8) (count dirStart dirEnd fin : ℕ) (width : UInt32) : Prop where
  eocd : eocd data = .ok fin
  count : ∃ n, le16 data (fin + 10) = some n ∧ n.toNat = count
  width_eq : le32 data (fin + 12) = some width
  dirEnd_eq : dirEnd = dirStart + width.toNat
  dirEnd_le : dirEnd ≤ fin

theorem directoryBounds_spec {data : List UInt8} {count dirStart dirEnd : ℕ}
    (h : directoryBounds data = .ok (count, dirStart, dirEnd)) :
    ∃ fin size, BoundsAt data count dirStart dirEnd fin size := by
  simp only [directoryBounds, Except.bind_ok, Except.ensure_ok, orInvalid_ok] at h
  obtain ⟨fin, hfin, -, -, n, hn, -, -, size, hsize, start, -, -, -, -, -, -, hle, hbounds⟩ := h
  obtain ⟨rfl, hrest⟩ := Prod.mk.inj (Except.ok.inj hbounds)
  cases hrest
  exact ⟨fin, size, hfin, ⟨n, hn, rfl⟩, hsize, rfl, hle⟩

theorem walk_spec {data : List UInt8} {archive : Archive} (h : walk data = .ok archive) :
    ∃ count dirEnd members last, directoryBounds data = .ok (count, archive.directoryStart, dirEnd) ∧
      readEntries data archive.directoryStart dirEnd count archive.directoryStart =
        .ok (members, last) ∧
      archive = archiveOf members (signingBlock data archive.directoryStart)
        archive.directoryStart := by
  simp only [walk, Except.bind_ok, Except.ensure_ok] at h
  obtain ⟨⟨count, dirStart, dirEnd⟩, hbounds, ⟨members, last⟩, hentries, -, -, -, -, harchive⟩ := h
  cases harchive
  exact ⟨count, dirEnd, members, last, hbounds, hentries, rfl⟩

theorem readEntries_succ {data : List UInt8} {dirStart dirEnd n pos last : ℕ}
    {members : List Member}
    (h : readEntries data dirStart dirEnd (n + 1) pos = .ok (members, last)) :
    ∃ m rest, member data pos dirStart dirEnd = .ok m ∧
      readEntries data dirStart dirEnd n m.next = .ok (rest, last) ∧ members = m :: rest := by
  simp only [readEntries, Except.bind_ok] at h
  obtain ⟨m, hm, ⟨rest, last'⟩, hrest, heq⟩ := h
  cases heq
  exact ⟨m, rest, hm, hrest, rfl⟩

/-! ## The schemes of a signing block -/

/-- A block has one value of a scheme at most. -/
def SigningBlock.Distinct (b : SigningBlock) : Prop :=
  (b.values.map Prod.fst).Nodup ∧ ∀ value ∈ b.values, value.1 ∈ b.schemes

theorem SigningBlock.Distinct.insert {b : SigningBlock} (h : b.Distinct) (scheme : String)
    (value : List UInt8) : (b.insert scheme value).Distinct := by
  unfold SigningBlock.insert
  split
  · exact h
  · rename_i hnew
    constructor
    · rw [map_append, map_singleton, nodup_append]
      refine ⟨h.1, pairwise_singleton _ _, fun old hold new hmem hsame ↦ ?_⟩
      obtain ⟨v, hv, rfl⟩ := mem_map.1 hold
      have hscheme : v.1 = scheme := hsame.trans (mem_singleton.1 hmem)
      exact hnew (hscheme ▸ h.2 v hv)
    · intro v hv
      rcases mem_append.1 hv with hv | hv
      · exact mem_append_left _ (h.2 v hv)
      · rw [mem_singleton.1 hv]
        exact mem_append_right _ (.head _)

theorem signingPairs_distinct {data : List UInt8} {footer pos last : ℕ} {found result : SigningBlock}
    (hfound : found.Distinct) (h : signingPairs data footer pos found = some (result, last)) :
    result.Distinct := by
  fun_induction signingPairs data footer pos found with
  | case1 => simp at h
  | case2 => simp at h
  | case3 pos found _ len _ _ id value _ _ ih =>
    refine ih ?_ h
    split
    · exact hfound.insert _ _
    · exact hfound
  | case4 => simp at h
  | case5 =>
    cases h
    exact hfound

/-- **A scheme has one value.** -/
theorem walk_distinct {data : List UInt8} {archive : Archive} (h : walk data = .ok archive) :
    (archive.signingValues.map Prod.fst).Nodup := by
  obtain ⟨_, _, _, _, -, -, harchive⟩ := walk_spec h
  have hvalues : ((signingBlock data archive.directoryStart).values.map Prod.fst).Nodup := by
    unfold signingBlock
    split
    · exact nodup_nil
    · split
      · exact nodup_nil
      · rename_i found _ hfound
        have hempty : SigningBlock.default.Distinct :=
          ⟨nodup_nil, nofun⟩
        exact (signingPairs_distinct hempty hfound).1.sublist (filter_sublist.map _)
  rw [harchive, archiveOf]
  split
  · exact hvalues
  · exact nodup_nil

end Huntsman.Apk
