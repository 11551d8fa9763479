import Huntsman.Lib.Bytes
import Huntsman.Text
import Huntsman.Xlsx.Cells
import Mathlib.Algebra.Order.BigOperators.Group.List
import Mathlib.Algebra.Order.Group.Nat
import Mathlib.Data.Option.Basic

/-!
# Stored archives

`storedZip` writes a ZIP whose entries are stored as they are: each entry behind its header, then
the directory with a header for each, then the record at the end.  It refuses what the fields of a
ZIP do not hold.  `unzip` reads an archive through its directory and checks each entry against its
checksum.

What is written is read back (`unzip_storedZip`).
-/

set_option autoImplicit false

namespace Huntsman.Xlsx

open List

open Bytes (Holds littleEndian number slice)

/-- The bytes of a text. -/
def bytesOf (s : Str) : List UInt8 := s.flatMap String.utf8EncodeChar

/-- `String::from_utf8`. -/
def fromUtf8 (bytes : List UInt8) : Option Str := (Text.fromUtf8 bytes).map String.toList

theorem fromUtf8_bytesOf (s : Str) : fromUtf8 (bytesOf s) = some s := by
  have hread : Text.fromUtf8 (bytesOf s) = some (String.ofList s) := by
    rw [Text.fromUtf8_eq_some, Text.utf8, String.toList_ofList, bytesOf]
  rw [fromUtf8, hread, Option.map_some, String.toList_ofList]

/-- One bit of the checksum's division. -/
def crcBit (crc : UInt32) : UInt32 :=
  if crc &&& 1 = 1 then (crc >>> 1) ^^^ 0xEDB88320 else crc >>> 1

/-- CRC-32, as ZIP records it. -/
def crc32 (data : List UInt8) : UInt32 :=
  ~~~ (data.foldl (fun crc b ↦ crcBit^[8] (crc ^^^ b.toUInt32)) 0xFFFFFFFF)

example : crc32 "123456789".toUTF8.toList = 0xCBF43926 := by decide +kernel

/-- A number as two bytes, and the greatest that there is for what is too great. -/
def u16Le (value : ℕ) : List UInt8 := littleEndian 2 (min value 0xFFFF)

/-- A number as four bytes, and the greatest that there is for what is too great. -/
def u32Le (value : ℕ) : List UInt8 := littleEndian 4 (min value 0xFFFFFFFF)

/-- 1980-01-01 00:00, the earliest date there is. -/
def dosDate : ℕ := 33

abbrev Entry := Str × List UInt8

/-- The fields of the header before an entry's data. -/
def localHeader (e : Entry) : List (List UInt8) :=
  [littleEndian 4 0x04034b50, u16Le 20, u16Le 0x0800, u16Le 0, u16Le 0, u16Le dosDate,
    littleEndian 4 (crc32 e.2).toNat, u32Le e.2.length, u32Le e.2.length,
    u16Le (bytesOf e.1).length, u16Le 0, bytesOf e.1]

/-- The fields of an entry's header in the directory. -/
def centralHeader (e : Entry) (offset : ℕ) : List (List UInt8) :=
  [littleEndian 4 0x02014b50, u16Le 20, u16Le 20, u16Le 0x0800, u16Le 0, u16Le 0, u16Le dosDate,
    littleEndian 4 (crc32 e.2).toNat, u32Le e.2.length, u32Le e.2.length,
    u16Le (bytesOf e.1).length, u16Le 0, u16Le 0, u16Le 0, u16Le 0, u32Le 0, u32Le offset,
    bytesOf e.1]

/-- An entry behind its header. -/
def localPart (e : Entry) : List UInt8 := (localHeader e).flatten ++ e.2

/-- The directory of entries of which the first has its own header at `offset`. -/
def directoryFrom : ℕ → List Entry → List UInt8
  | _, [] => []
  | offset, e :: es =>
    (centralHeader e offset).flatten ++ directoryFrom (offset + (localPart e).length) es

/-- How many bytes the entries and their headers are. -/
def localBytes (entries : List Entry) : ℕ :=
  (entries.map fun e ↦ 30 + (bytesOf e.1).length + e.2.length).sum

def directoryBytes (entries : List Entry) : ℕ :=
  (entries.map fun e ↦ 46 + (bytesOf e.1).length).sum

theorem localBytes_cons (e : Entry) (es : List Entry) :
    localBytes (e :: es) = 30 + (bytesOf e.1).length + e.2.length + localBytes es := by
  rw [localBytes, map_cons, sum_cons, localBytes]

theorem directoryBytes_cons (e : Entry) (es : List Entry) :
    directoryBytes (e :: es) = 46 + (bytesOf e.1).length + directoryBytes es := by
  rw [directoryBytes, map_cons, sum_cons, directoryBytes]

/-- What `stored_zip` asserts before it writes anything: that each number has room in its field. -/
structure WithinLimits (entries : List Entry) : Prop where
  count : entries.length ≤ 0xFFFF
  names : ∀ e ∈ entries, (bytesOf e.1).length ≤ 0xFFFF
  sizes : ∀ e ∈ entries, e.2.length ≤ 0xFFFFFFFF
  offset : localBytes entries ≤ 0xFFFFFFFF
  directory : directoryBytes entries ≤ 0xFFFFFFFF
  archive : localBytes entries + directoryBytes entries + 22 ≤ 0xFFFFFFFF

instance (entries : List Entry) : Decidable (WithinLimits entries) :=
  decidable_of_iff (entries.length ≤ 0xFFFF ∧ (∀ e ∈ entries, (bytesOf e.1).length ≤ 0xFFFF) ∧
      (∀ e ∈ entries, e.2.length ≤ 0xFFFFFFFF) ∧ localBytes entries ≤ 0xFFFFFFFF ∧
      directoryBytes entries ≤ 0xFFFFFFFF ∧
      localBytes entries + directoryBytes entries + 22 ≤ 0xFFFFFFFF)
    ⟨fun ⟨a, b, c, d, e, f⟩ ↦ ⟨a, b, c, d, e, f⟩, fun ⟨a, b, c, d, e, f⟩ ↦ ⟨a, b, c, d, e, f⟩⟩

/-- Entries that are few and small are within the limits. -/
theorem withinLimits_of_small {entries : List Entry} (hcount : entries.length ≤ 10)
    (hsmall : ∀ e ∈ entries, (bytesOf e.1).length ≤ 100 ∧ e.2.length ≤ 10 ^ 6) :
    WithinLimits entries := by
  have hlocal : localBytes entries ≤ 10 * (30 + 100 + 10 ^ 6) := by
    refine (sum_le_card_nsmul _ (30 + 100 + 10 ^ 6) fun n hn ↦ ?_).trans ?_
    · obtain ⟨e, he, rfl⟩ := mem_map.1 hn
      have := hsmall e he
      omega
    · rw [length_map]
      exact Nat.mul_le_mul_right _ hcount
  have hdirectory : directoryBytes entries ≤ 10 * (46 + 100) := by
    refine (sum_le_card_nsmul _ (46 + 100) fun n hn ↦ ?_).trans ?_
    · obtain ⟨e, he, rfl⟩ := mem_map.1 hn
      have := hsmall e he
      omega
    · rw [length_map]
      exact Nat.mul_le_mul_right _ hcount
  refine ⟨by omega, fun e he ↦ ?_, fun e he ↦ ?_, by omega, by omega, by omega⟩
  · exact (hsmall e he).1.trans (by decide)
  · exact (hsmall e he).2.trans (by decide)

/-- The record at the end of an archive. -/
def endRecord (count directory offset : ℕ) : List (List UInt8) :=
  [littleEndian 4 0x06054b50, u16Le 0, u16Le 0, u16Le count, u16Le count, u32Le directory,
    u32Le offset, u16Le 0]

/-- A ZIP of the entries, each stored as it is; none where an assertion fails. -/
def storedZip (entries : List Entry) : Option (List UInt8) :=
  if WithinLimits entries then
    let out := entries.flatMap localPart
    let directory := directoryFrom 0 entries
    some (out ++ (directory ++ (endRecord entries.length directory.length out.length).flatten))
  else none

/-! ## The reader -/

/-- The loop of `unzip`, from where it is in the directory. -/
def unzipEntries (bytes : List UInt8) : ℕ → ℕ → Option (List Entry)
  | 0, _ => some []
  | count + 1, pos => do
    guard (number bytes 4 pos = some 0x02014b50)
    let crc ← number bytes 4 (pos + 16)
    let size ← number bytes 4 (pos + 24)
    let nameLen ← number bytes 2 (pos + 28)
    let start ← number bytes 4 (pos + 42)
    let name ← (slice bytes (pos + 46) (pos + 46 + nameLen)).bind fromUtf8
    guard (number bytes 4 start = some 0x04034b50)
    let skip ← number bytes 2 (start + 26)
    let extra ← number bytes 2 (start + 28)
    let dataAt := start + 30 + skip + extra
    let data ← slice bytes dataAt (dataAt + size)
    guard (crc = (crc32 data).toNat)
    let more ← unzipEntries bytes count (pos + 46 + nameLen)
    some ((name, data) :: more)

/-- The entries of an archive, read through its directory. -/
def unzip (bytes : List UInt8) : Option (List Entry) := do
  guard (22 ≤ bytes.length)
  let fin := bytes.length - 22
  guard (number bytes 4 fin = some 0x06054b50)
  let count ← number bytes 2 (fin + 10)
  let pos ← number bytes 4 (fin + 16)
  unzipEntries bytes count pos

/-! ## Reading what was written -/

variable {bytes : List UInt8} {entries : List Entry} {e : Entry} {pos offset n : ℕ}

theorem number_u16Le (h : Holds bytes pos (u16Le n)) (hn : n ≤ 0xFFFF) :
    number bytes 2 pos = some n := by
  rw [u16Le, Nat.min_eq_left hn] at h
  exact h.number (by omega)

theorem number_u32Le (h : Holds bytes pos (u32Le n)) (hn : n ≤ 0xFFFFFFFF) :
    number bytes 4 pos = some n := by
  rw [u32Le, Nat.min_eq_left hn] at h
  exact h.number (by omega)

theorem number_crc {data : List UInt8}
    (h : Holds bytes pos (littleEndian 4 (crc32 data).toNat)) :
    number bytes 4 pos = some (crc32 data).toNat :=
  h.number (crc32 data).toNat_lt

theorem length_localHeader (e : Entry) :
    (localHeader e).flatten.length = 30 + (bytesOf e.1).length := by
  simp only [localHeader, u16Le, u32Le, flatten_cons, flatten_nil, length_append,
    Bytes.length_littleEndian, length_nil]
  omega

theorem length_centralHeader (e : Entry) (offset : ℕ) :
    (centralHeader e offset).flatten.length = 46 + (bytesOf e.1).length := by
  simp only [centralHeader, u16Le, u32Le, flatten_cons, flatten_nil, length_append,
    Bytes.length_littleEndian, length_nil]
  omega

/-- What the reader of an archive asks of an entry's header in the directory. -/
theorem reads_centralHeader (h : Holds bytes pos (centralHeader e offset).flatten)
    (hname : (bytesOf e.1).length ≤ 0xFFFF) (hsize : e.2.length ≤ 0xFFFFFFFF)
    (hoffset : offset ≤ 0xFFFFFFFF) :
    number bytes 4 pos = some 0x02014b50 ∧ number bytes 4 (pos + 16) = some (crc32 e.2).toNat ∧
      number bytes 4 (pos + 24) = some e.2.length ∧
      number bytes 2 (pos + 28) = some (bytesOf e.1).length ∧
      number bytes 4 (pos + 42) = some offset ∧ Holds bytes (pos + 46) (bytesOf e.1) := by
  have hfield : ∀ i field, (centralHeader e offset)[i]? = some field →
      Holds bytes (pos + ((centralHeader e offset).take i).flatten.length) field :=
    fun i field hi ↦ h.flatten hi
  exact ⟨(hfield 0 _ rfl).number (by decide), number_crc (hfield 7 _ rfl),
    number_u32Le (hfield 9 _ rfl) hsize, number_u16Le (hfield 10 _ rfl) hname,
    number_u32Le (hfield 16 _ rfl) hoffset, hfield 17 _ rfl⟩

/-- What the reader asks of an entry's own header. -/
theorem reads_localHeader (h : Holds bytes pos (localHeader e).flatten)
    (hname : (bytesOf e.1).length ≤ 0xFFFF) :
    number bytes 4 pos = some 0x04034b50 ∧
      number bytes 2 (pos + 26) = some (bytesOf e.1).length ∧
      number bytes 2 (pos + 28) = some 0 := by
  have hfield : ∀ i field, (localHeader e)[i]? = some field →
      Holds bytes (pos + ((localHeader e).take i).flatten.length) field :=
    fun i field hi ↦ h.flatten hi
  exact ⟨(hfield 0 _ rfl).number (by decide), number_u16Le (hfield 9 _ rfl) hname,
    number_u16Le (hfield 10 _ rfl) (Nat.zero_le _)⟩

theorem length_localPart (e : Entry) :
    (localPart e).length = 30 + (bytesOf e.1).length + e.2.length := by
  rw [localPart, length_append, length_localHeader]

theorem localBytes_eq (entries : List Entry) :
    (entries.flatMap localPart).length = localBytes entries := by
  rw [length_flatMap, localBytes]
  simp only [length_localPart]

theorem directoryBytes_eq (entries : List Entry) (offset : ℕ) :
    (directoryFrom offset entries).length = directoryBytes entries := by
  induction entries generalizing offset with
  | nil => rfl
  | cons e es ih =>
    rw [directoryFrom, length_append, length_centralHeader, ih, directoryBytes_cons]

/-- Entries are read one by one: the directory from `pos` on tells where each one is. -/
theorem unzipEntries_directoryFrom (hdirectory : Holds bytes pos (directoryFrom offset entries))
    (hlocal : Holds bytes offset (entries.flatMap localPart))
    (hnames : ∀ e ∈ entries, (bytesOf e.1).length ≤ 0xFFFF)
    (hsizes : ∀ e ∈ entries, e.2.length ≤ 0xFFFFFFFF)
    (hoffset : offset + localBytes entries ≤ 0xFFFFFFFF) :
    unzipEntries bytes entries.length pos = some entries := by
  induction entries generalizing pos offset with
  | nil => rfl
  | cons e es ih =>
    rw [directoryFrom] at hdirectory
    rw [flatMap_cons] at hlocal
    have hbytes : localBytes (e :: es) = (localPart e).length + localBytes es := by
      rw [localBytes_cons, length_localPart]
    have hname := hnames e (.head _)
    have hsize := hsizes e (.head _)
    obtain ⟨hsig, hcrc, hlen, hnameLen, hstart, hnameAt⟩ :=
      reads_centralHeader hdirectory.left hname hsize (by omega)
    obtain ⟨hsig', hskip, hextra⟩ := reads_localHeader hlocal.left.left hname
    have hdata : Holds bytes (offset + 30 + (bytesOf e.1).length + 0) e.2 := by
      have hright := hlocal.left.right
      rwa [length_localHeader, ← Nat.add_assoc] at hright
    have hmore : unzipEntries bytes es.length (pos + 46 + (bytesOf e.1).length) = some es := by
      refine ih ?_ hlocal.right (fun e' he' ↦ hnames e' (.tail _ he'))
        (fun e' he' ↦ hsizes e' (.tail _ he')) (by omega)
      have hright := hdirectory.right
      rwa [length_centralHeader, ← Nat.add_assoc] at hright
    rw [length_cons, unzipEntries]
    simp only [hsig, hcrc, hlen, hnameLen, hstart, hnameAt.slice, fromUtf8_bytesOf, hsig', hskip,
      hextra, hdata.slice, hmore, guard, if_true, Option.bind_eq_bind, Option.bind_some,
      Option.pure_def]

/-- Where the parts of an archive stand, and what a reader asks of the record at its end. -/
theorem reads_storedZip (h : storedZip entries = some bytes) : WithinLimits entries ∧
    bytes.length = localBytes entries + directoryBytes entries + 22 ∧
    Holds bytes 0 (entries.flatMap localPart) ∧
    Holds bytes (localBytes entries) (directoryFrom 0 entries) ∧
    number bytes 4 (bytes.length - 22) = some 0x06054b50 ∧
    number bytes 2 (bytes.length - 22 + 10) = some entries.length ∧
    number bytes 4 (bytes.length - 22 + 16) = some (localBytes entries) := by
  rw [storedZip] at h
  split at h
  · rename_i hlimits
    let out := entries.flatMap localPart
    let directory := directoryFrom 0 entries
    let last := endRecord entries.length directory.length out.length
    have hbytes : out ++ (directory ++ last.flatten) = bytes := Option.some.inj h
    have hall : Holds bytes 0 (out ++ (directory ++ last.flatten)) := by
      have hself := Bytes.holds_self bytes []
      rw [append_nil] at hself
      rwa [hbytes]
    have hout : out.length = localBytes entries := localBytes_eq entries
    have hdir : directory.length = directoryBytes entries := directoryBytes_eq entries 0
    have hat : Holds bytes (localBytes entries) (directory ++ last.flatten) := by
      have hright := hall.right
      rwa [Nat.zero_add, hout] at hright
    have hlast := hat.right
    rw [hdir] at hlast
    have hlength : bytes.length = localBytes entries + directoryBytes entries + 22 := by
      rw [← hbytes, length_append, length_append, hout, hdir, ← Nat.add_assoc]
      rfl
    have hfin : bytes.length - 22 = localBytes entries + directoryBytes entries := by
      rw [hlength, Nat.add_sub_cancel]
    have hfield : ∀ i field, last[i]? = some field →
        Holds bytes (bytes.length - 22 + (last.take i).flatten.length) field :=
      fun i field hi ↦ hfin ▸ hlast.flatten hi
    refine ⟨hlimits, hlength, hall.left, hat.left, (hfield 0 _ rfl).number (by decide),
      number_u16Le (hfield 4 _ rfl) hlimits.count, ?_⟩
    rw [← hout]
    exact number_u32Le (hfield 6 _ rfl) (hout ▸ hlimits.offset)
  · cases h

/-- **What is stored is read back**, every entry under its name and with its bytes. -/
theorem unzip_storedZip (h : storedZip entries = some bytes) : unzip bytes = some entries := by
  obtain ⟨hlimits, hlength, hlocal, hdirectory, hsig, hcount, hpos⟩ := reads_storedZip h
  have hge : 22 ≤ bytes.length := hlength ▸ Nat.le_add_left _ _
  have hentries : unzipEntries bytes entries.length (localBytes entries) = some entries := by
    refine unzipEntries_directoryFrom hdirectory hlocal hlimits.names hlimits.sizes ?_
    rw [Nat.zero_add]
    exact hlimits.offset
  rw [unzip]
  simp only [hge, hsig, hcount, hpos, guard, if_true, Option.bind_eq_bind, Option.bind_some,
    Option.pure_def]
  exact hentries

end Huntsman.Xlsx
