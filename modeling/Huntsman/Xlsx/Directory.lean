import Huntsman.Lib.Crc
import Huntsman.Lib.Offsets
import Huntsman.Xlsx.Zip

/-!
# What stands where in a stored archive

`archive` goes through an archive as any reader of a ZIP does: from the record at the end to the
directory, and from each header there to the entry's own header and bytes.  It answers where each
header stands and what it says.  In what `storedZip` writes the two headers of an entry agree, and
headers, names, bytes of entries and the record at the end stand one after the other and are the
whole of it (`tiles_found`).
-/

set_option autoImplicit false

namespace Huntsman.Xlsx

open Bytes (Holds littleEndian number slice)
open Offsets (Tiles)
open List Polynomial

/-! ## A reader of archives -/

/-- A header: where it stands, how long it is without its name and what follows that, and what it
says. -/
structure Header where
  start : ℕ
  fixed : ℕ
  name : List UInt8
  extra : ℕ
  size : ℕ
  crc : ℕ
deriving DecidableEq

/-- Where a header ends. -/
def Header.fin (h : Header) : ℕ := h.start + h.fixed + h.name.length + h.extra

/-- The header at `pos` of an entry that is stored as it is.  From `fields` on the two kinds of
header have the same fields. -/
def header (bytes : List UInt8) (signature fields fixed pos : ℕ) : Option Header := do
  guard (number bytes 4 pos = some signature)
  guard (number bytes 2 (pos + fields) = some 0)
  let crc ← number bytes 4 (pos + (fields + 6))
  let size ← number bytes 4 (pos + (fields + 14))
  let nameLen ← number bytes 2 (pos + (fields + 18))
  let extra ← number bytes 2 (pos + (fields + 20))
  let name ← slice bytes (pos + fixed) (pos + fixed + nameLen)
  some ⟨pos, fixed, name, extra, size, crc⟩

/-- An entry: the header in the directory, its own header where the former says, and its bytes. -/
structure Found where
  listed : Header
  own : Header
  data : List UInt8
deriving DecidableEq

/-- The entries of a directory, from `pos` on. -/
def listing (bytes : List UInt8) : ℕ → ℕ → Option (List Found)
  | 0, _ => some []
  | count + 1, pos => do
    let listed ← header bytes 0x02014b50 10 46 pos
    let comment ← number bytes 2 (pos + 32)
    let start ← number bytes 4 (pos + 42)
    let own ← header bytes 0x04034b50 8 30 start
    let data ← slice bytes own.fin (own.fin + listed.size)
    let more ← listing bytes count (listed.fin + comment)
    some (⟨listed, own, data⟩ :: more)

/-- The entries of an archive. -/
def archive (bytes : List UInt8) : Option (List Found) := do
  guard (22 ≤ bytes.length)
  guard (number bytes 4 (bytes.length - 22) = some 0x06054b50)
  let count ← number bytes 2 (bytes.length - 22 + 10)
  let pos ← number bytes 4 (bytes.length - 22 + 16)
  listing bytes count pos

/-- A header and its name. -/
def Header.ranges (h : Header) : List (ℕ × ℕ) :=
  [(h.start, h.start + h.fixed), (h.start + h.fixed, h.start + h.fixed + h.name.length)]

/-- The headers, names, bytes and the record at the end of an archive. -/
def ranges (bytes : List UInt8) (found : List Found) : List (ℕ × ℕ) :=
  (found.flatMap fun f ↦ f.own.ranges ++ [(f.own.fin, f.own.fin + f.data.length)]) ++
    ((found.flatMap fun f ↦ f.listed.ranges) ++ [(bytes.length - 22, bytes.length)])

/-! ## What is written -/

variable {bytes : List UInt8} {entries : List Entry} {e : Entry} {pos offset : ℕ}

/-- What is found of an entry whose headers are at `pos` and `offset`. -/
def foundAt (pos offset : ℕ) (e : Entry) : Found :=
  ⟨⟨pos, 46, bytesOf e.1, 0, e.2.length, (crc32 e.2).toNat⟩,
    ⟨offset, 30, bytesOf e.1, 0, e.2.length, (crc32 e.2).toNat⟩, e.2⟩

/-- What is found of entries one after the other. -/
def foundFrom : ℕ → ℕ → List Entry → List Found
  | _, _, [] => []
  | pos, offset, e :: es =>
    foundAt pos offset e :: foundFrom (pos + (46 + (bytesOf e.1).length))
      (offset + (30 + (bytesOf e.1).length + e.2.length)) es

theorem header_listed (h : Holds bytes pos (centralHeader e offset).flatten)
    (hname : (bytesOf e.1).length ≤ 0xFFFF) (hsize : e.2.length ≤ 0xFFFFFFFF)
    (hoffset : offset ≤ 0xFFFFFFFF) :
    header bytes 0x02014b50 10 46 pos = some (foundAt pos offset e).listed ∧
      number bytes 2 (pos + 32) = some 0 ∧ number bytes 4 (pos + 42) = some offset := by
  have hfield : ∀ i field, (centralHeader e offset)[i]? = some field →
      Holds bytes (pos + ((centralHeader e offset).take i).flatten.length) field :=
    fun i field hi ↦ h.flatten hi
  have hsig : number bytes 4 pos = some 0x02014b50 := (hfield 0 _ rfl).number (by decide)
  have hstored : number bytes 2 (pos + 10) = some 0 := number_u16Le (hfield 4 _ rfl) (by decide)
  have hcrc : number bytes 4 (pos + 16) = some (crc32 e.2).toNat := number_crc (hfield 7 _ rfl)
  have hlen : number bytes 4 (pos + 24) = some e.2.length := number_u32Le (hfield 9 _ rfl) hsize
  have hnameLen : number bytes 2 (pos + 28) = some (bytesOf e.1).length :=
    number_u16Le (hfield 10 _ rfl) hname
  have hextra : number bytes 2 (pos + 30) = some 0 := number_u16Le (hfield 11 _ rfl) (by decide)
  have hcomment : number bytes 2 (pos + 32) = some 0 := number_u16Le (hfield 12 _ rfl) (by decide)
  have hstart : number bytes 4 (pos + 42) = some offset := number_u32Le (hfield 16 _ rfl) hoffset
  have hnameAt : Holds bytes (pos + 46) (bytesOf e.1) := hfield 17 _ rfl
  refine ⟨?_, hcomment, hstart⟩
  simp only [header, hsig, hstored, hcrc, hlen, hnameLen, hextra, hnameAt.slice, guard, if_true,
    Option.bind_eq_bind, Option.bind_some, Option.pure_def]
  rfl

theorem header_own (pos : ℕ) (h : Holds bytes offset (localHeader e).flatten)
    (hname : (bytesOf e.1).length ≤ 0xFFFF) (hsize : e.2.length ≤ 0xFFFFFFFF) :
    header bytes 0x04034b50 8 30 offset = some (foundAt pos offset e).own := by
  have hfield : ∀ i field, (localHeader e)[i]? = some field →
      Holds bytes (offset + ((localHeader e).take i).flatten.length) field :=
    fun i field hi ↦ h.flatten hi
  have hsig : number bytes 4 offset = some 0x04034b50 := (hfield 0 _ rfl).number (by decide)
  have hstored : number bytes 2 (offset + 8) = some 0 := number_u16Le (hfield 3 _ rfl) (by decide)
  have hcrc : number bytes 4 (offset + 14) = some (crc32 e.2).toNat := number_crc (hfield 6 _ rfl)
  have hlen : number bytes 4 (offset + 22) = some e.2.length := number_u32Le (hfield 8 _ rfl) hsize
  have hnameLen : number bytes 2 (offset + 26) = some (bytesOf e.1).length :=
    number_u16Le (hfield 9 _ rfl) hname
  have hextra : number bytes 2 (offset + 28) = some 0 :=
    number_u16Le (hfield 10 _ rfl) (by decide)
  have hnameAt : Holds bytes (offset + 30) (bytesOf e.1) := hfield 11 _ rfl
  simp only [header, hsig, hstored, hcrc, hlen, hnameLen, hextra, hnameAt.slice, guard, if_true,
    Option.bind_eq_bind, Option.bind_some, Option.pure_def]
  rfl

/-- The entries are found one by one. -/
theorem listing_directoryFrom (hdirectory : Holds bytes pos (directoryFrom offset entries))
    (hlocal : Holds bytes offset (entries.flatMap localPart))
    (hnames : ∀ e ∈ entries, (bytesOf e.1).length ≤ 0xFFFF)
    (hsizes : ∀ e ∈ entries, e.2.length ≤ 0xFFFFFFFF)
    (hoffset : offset + localBytes entries ≤ 0xFFFFFFFF) :
    listing bytes entries.length pos = some (foundFrom pos offset entries) := by
  induction entries generalizing pos offset with
  | nil => rfl
  | cons e es ih =>
    rw [directoryFrom] at hdirectory
    rw [flatMap_cons] at hlocal
    have hbytes : localBytes (e :: es) = (localPart e).length + localBytes es := by
      rw [localBytes_cons, length_localPart]
    have hname := hnames e (.head _)
    have hsize := hsizes e (.head _)
    obtain ⟨hlisted, hcomment, hstart⟩ := header_listed hdirectory.left hname hsize (by omega)
    have hown := header_own pos hlocal.left.left hname hsize
    have hdata : Holds bytes (foundAt pos offset e).own.fin e.2 := by
      have hright := hlocal.left.right
      rwa [length_localHeader, ← Nat.add_assoc] at hright
    have hfin : (foundAt pos offset e).listed.fin + 0 = pos + (46 + (bytesOf e.1).length) := by
      simp only [Header.fin, foundAt]
      omega
    have hdata' : slice bytes (foundAt pos offset e).own.fin
        ((foundAt pos offset e).own.fin + (foundAt pos offset e).listed.size) = some e.2 :=
      hdata.slice
    have hmore : listing bytes es.length (pos + (46 + (bytesOf e.1).length)) =
        some (foundFrom (pos + (46 + (bytesOf e.1).length))
          (offset + (30 + (bytesOf e.1).length + e.2.length)) es) := by
      rw [← length_localPart]
      refine ih ?_ hlocal.right (fun e' he' ↦ hnames e' (.tail _ he'))
        (fun e' he' ↦ hsizes e' (.tail _ he')) (by omega)
      have hright := hdirectory.right
      rwa [length_centralHeader] at hright
    rw [length_cons, listing]
    simp only [hlisted, hcomment, hstart, hown, hdata', hfin, hmore, Option.bind_eq_bind,
      Option.bind_some]
    rfl

/-- The entries with their headers stand one after the other. -/
theorem tiles_own (pos offset : ℕ) (entries : List Entry) :
    Tiles offset (offset + localBytes entries) ((foundFrom pos offset entries).flatMap fun f ↦
      f.own.ranges ++ [(f.own.fin, f.own.fin + f.data.length)]) := by
  induction entries generalizing pos offset with
  | nil => rfl
  | cons e es ih =>
    rw [localBytes_cons, ← Nat.add_assoc offset, foundFrom, flatMap_cons]
    refine Tiles.append (b := offset + (30 + (bytesOf e.1).length + e.2.length)) ?_ (ih _ _)
    refine ⟨rfl, Nat.le_add_right _ _, rfl, Nat.le_add_right _ _, rfl, Nat.le_add_right _ _, ?_⟩
    simp only [Header.fin, foundAt, Tiles]
    omega

/-- So do the headers of the directory. -/
theorem tiles_listed (pos offset : ℕ) (entries : List Entry) :
    Tiles pos (pos + directoryBytes entries)
      ((foundFrom pos offset entries).flatMap fun f ↦ f.listed.ranges) := by
  induction entries generalizing pos offset with
  | nil => rfl
  | cons e es ih =>
    rw [directoryBytes_cons, ← Nat.add_assoc pos, foundFrom, flatMap_cons]
    refine Tiles.append (b := pos + (46 + (bytesOf e.1).length)) ?_ (ih _ _)
    refine ⟨rfl, Nat.le_add_right _ _, rfl, Nat.le_add_right _ _, ?_⟩
    simp only [foundAt, Tiles]
    omega

theorem mem_foundFrom {f : Found} (h : f ∈ foundFrom pos offset entries) :
    ∃ e ∈ entries, ∃ pos offset, f = foundAt pos offset e := by
  induction entries generalizing pos offset with
  | nil => cases h
  | cons e es ih =>
    rcases mem_cons.1 h with rfl | h
    · exact ⟨e, (.head _), pos, offset, rfl⟩
    · obtain ⟨e', he', hf⟩ := ih h
      exact ⟨e', .tail _ he', hf⟩

theorem map_foundFrom (pos offset : ℕ) (entries : List Entry) :
    (foundFrom pos offset entries).map (fun f ↦ (f.listed.name, f.data)) =
      entries.map fun e ↦ (bytesOf e.1, e.2) := by
  induction entries generalizing pos offset with
  | nil => rfl
  | cons e es ih =>
    rw [foundFrom, map_cons, ih, map_cons]
    rfl

/-- **The entries are found**, each under its name and with its bytes, and what is found is the
whole of the archive. -/
theorem archive_storedZip (h : storedZip entries = some bytes) :
    archive bytes = some (foundFrom (localBytes entries) 0 entries) ∧
      Tiles 0 bytes.length (ranges bytes (foundFrom (localBytes entries) 0 entries)) := by
  obtain ⟨hlimits, hlength, hlocal, hdirectory, hsig, hcount, hpos⟩ := reads_storedZip h
  have hge : 22 ≤ bytes.length := hlength ▸ Nat.le_add_left _ _
  have hoffset : 0 + localBytes entries ≤ 0xFFFFFFFF := by
    rw [Nat.zero_add]
    exact hlimits.offset
  have hfound := listing_directoryFrom hdirectory hlocal hlimits.names hlimits.sizes hoffset
  constructor
  · rw [archive]
    simp only [hge, hsig, hcount, hpos, guard, if_true, Option.bind_eq_bind, Option.bind_some,
      Option.pure_def]
    exact hfound
  · have hown := tiles_own (localBytes entries) 0 entries
    rw [Nat.zero_add] at hown
    refine hown.append ((tiles_listed (localBytes entries) 0 entries).append ?_)
    exact ⟨by omega, Nat.sub_le _ _, rfl⟩

/-! ## The checksum -/

/-- The polynomial of CRC-32. -/
noncomputable def ieee : Polynomial (ZMod 2) :=
  X ^ 32 + X ^ 26 + X ^ 23 + X ^ 22 + X ^ 16 + X ^ 12 + X ^ 11 + X ^ 10 + X ^ 8 + X ^ 7 + X ^ 5 +
    X ^ 4 + X ^ 2 + X + 1

/-- The bits of a register that are all set. -/
noncomputable def ones : Polynomial (ZMod 2) := ∑ i ∈ Finset.range 32, X ^ i

theorem divisor_eq_ieee : Crc.divisor 0xEDB88320#32 = ieee := by
  have hbits : (Finset.range 32).filter (fun i ↦ (0xEDB88320#32).getLsbD (32 - 1 - i) = true) =
      {26, 23, 22, 16, 12, 11, 10, 8, 7, 5, 4, 2, 1, 0} := by decide
  rw [Crc.divisor, Crc.poly, ← Finset.sum_filter, hbits, ieee]
  repeat rw [Finset.sum_insert (by decide)]
  rw [Finset.sum_singleton]
  ring

theorem poly_allOnes : Crc.poly (BitVec.allOnes 32) = ones := by
  refine Finset.sum_congr rfl fun i _ ↦ if_pos ?_
  rw [BitVec.getLsbD_allOnes, decide_eq_true_eq]
  omega

theorem toBitVec_crcBit (crc : UInt32) :
    (crcBit crc).toBitVec = Crc.shift 0xEDB88320#32 crc.toBitVec := by
  have hlow : crc &&& 1 = 1 ↔ crc.toBitVec.getLsbD 0 = true := by
    rw [← UInt32.toBitVec_inj, UInt32.toBitVec_and, UInt32.toBitVec_one,
      BitVec.and_one_eq_setWidth_ofBool_getLsbD]
    cases crc.toBitVec.getLsbD 0 <;> decide
  rw [crcBit, Crc.shift]
  by_cases h : crc &&& 1 = 1
  · rw [if_pos h, if_pos (hlow.1 h)]
    rfl
  · rw [if_neg h, if_neg (mt hlow.2 h)]
    rfl

theorem toBitVec_iterate_crcBit (n : ℕ) (crc : UInt32) :
    (crcBit^[n] crc).toBitVec = (Crc.shift 0xEDB88320#32)^[n] crc.toBitVec := by
  induction n generalizing crc with
  | zero => rfl
  | succ n ih =>
    rw [Function.iterate_succ_apply, Function.iterate_succ_apply, ih, toBitVec_crcBit]

theorem toBitVec_crc32 (data : List UInt8) : (crc32 data).toBitVec =
    Crc.divide 0xEDB88320#32 (BitVec.allOnes 32) data ^^^ BitVec.allOnes 32 := by
  have hfold : ∀ crc : UInt32,
      (data.foldl (fun crc b ↦ crcBit^[8] (crc ^^^ b.toUInt32)) crc).toBitVec =
        Crc.divide 0xEDB88320#32 crc.toBitVec data := by
    induction data with
    | nil => exact fun _ ↦ rfl
    | cons b data ih =>
      intro crc
      rw [foldl_cons, ih, toBitVec_iterate_crcBit]
      rfl
  rw [crc32, UInt32.toBitVec_not, hfold, BitVec.xor_allOnes]
  rfl

/-- **The checksum is a remainder.**  The bits of the data, with 32 zeros behind them and the first
32 of them all turned over, are divided, and the bits of what remains are turned over. -/
theorem poly_crc32 (data : List UInt8) : Crc.poly (crc32 data).toBitVec =
    (ones * X ^ (8 * data.length) + Crc.message data * X ^ 32) %ₘ ieee + ones := by
  rw [toBitVec_crc32, Crc.poly_xor, Crc.poly_divide (by decide), divisor_eq_ieee, poly_allOnes]

/-! ## Archives -/

/-- **An archive is what a reader takes it for.**  Entries that have room in a ZIP are written and
read back, in their order.  Each is found behind a header at the place that the directory gives,
which says of it what the directory says; each byte is in exactly one header, name, entry or record.
The checksum of data is what the division by the polynomial of CRC-32 leaves. -/
theorem storedZip_archive (entries : List Entry) (hcount : entries.length ≤ 65535)
    (hnames : ∀ e ∈ entries, (bytesOf e.1).length ≤ 65535)
    (htotal : localBytes entries + directoryBytes entries + 22 ≤ 4294967295) :
    (∃ bytes found, storedZip entries = some bytes ∧ unzip bytes = some entries ∧
      archive bytes = some found ∧
      found.map (fun f ↦ (f.listed.name, f.data)) = entries.map (fun e ↦ (bytesOf e.1, e.2)) ∧
      (∀ f ∈ found, f.own.name = f.listed.name ∧ f.own.size = f.listed.size ∧
        f.own.crc = f.listed.crc ∧ f.listed.size = f.data.length ∧
        f.listed.crc = (crc32 f.data).toNat) ∧
      ∀ i < bytes.length, ∃! k : ℕ, ∃ range : ℕ × ℕ,
        (ranges bytes found)[k]? = some range ∧ range.1 ≤ i ∧ i < range.2) ∧
    ∀ data : List UInt8, Crc.poly (crc32 data).toBitVec =
      ((∑ i ∈ Finset.range 32, X ^ i) * X ^ (8 * data.length) + Crc.message data * X ^ 32) %ₘ ieee +
        ∑ i ∈ Finset.range 32, X ^ i := by
  refine ⟨?_, poly_crc32⟩
  have hsizes : ∀ e ∈ entries, e.2.length ≤ localBytes entries := by
    intro e he
    have hle := single_le_sum (fun n _ ↦ Nat.zero_le n) _
      (mem_map_of_mem (f := fun e : Entry ↦ 30 + (bytesOf e.1).length + e.2.length) he)
    exact (Nat.le_add_left _ _).trans hle
  have hlimits : WithinLimits entries :=
    ⟨hcount, hnames, fun e he ↦ (hsizes e he).trans (by omega), by omega, by omega, htotal⟩
  obtain ⟨bytes, hbytes⟩ : ∃ bytes, storedZip entries = some bytes := by
    rw [storedZip, if_pos hlimits]
    exact ⟨_, rfl⟩
  obtain ⟨hfound, htiles⟩ := archive_storedZip hbytes
  refine ⟨bytes, _, hbytes, unzip_storedZip hbytes, hfound, map_foundFrom _ _ _, fun f hf ↦ ?_,
    fun i hi ↦ htiles.existsUnique (Nat.zero_le i) hi⟩
  obtain ⟨e, -, pos, offset, rfl⟩ := mem_foundFrom hf
  exact ⟨rfl, rfl, rfl, rfl, rfl⟩

/-- An archive of one entry. -/
theorem storedZip_archive_one :
    ∃ bytes, storedZip [(['a'], [104, 105])] = some bytes ∧
      unzip bytes = some [(['a'], [104, 105])] := by
  obtain ⟨⟨bytes, -, hbytes, hunzip, -⟩, -⟩ :=
    storedZip_archive [(['a'], [104, 105])] (by decide) (by decide) (by decide)
  exact ⟨bytes, hbytes, hunzip⟩

/-- A name that has no room in its field is refused. -/
theorem storedZip_long_name {name : Str} (h : 0xFFFF < (bytesOf name).length) :
    storedZip [(name, [])] = none := by
  rw [storedZip, if_neg fun hlimits ↦ absurd (hlimits.names _ (.head _)) (not_le.2 h)]

theorem archiveBytes_name (name : Str) :
    localBytes [(name, [])] + directoryBytes [(name, [])] + 22 =
      98 + 2 * (bytesOf name).length := by
  simp only [localBytes, directoryBytes, map_cons, map_nil, sum_cons,
    sum_nil, length_nil]
  omega

theorem length_bytesOf_replicate (n : ℕ) : (bytesOf (List.replicate n 'a')).length = n := by
  have hone : (String.utf8EncodeChar 'a').length = 1 := by decide
  rw [bytesOf, length_flatMap, map_replicate, sum_replicate_nat, hone, Nat.mul_one]

/-- Such a name may stand in an archive that is not too long. -/
theorem not_storedZip_long_name :
    [((List.replicate 65536 'a', []) : Entry)].length ≤ 65535 ∧
      localBytes [(List.replicate 65536 'a', [])] +
        directoryBytes [(List.replicate 65536 'a', [])] + 22 ≤ 4294967295 ∧
      ¬ ∃ bytes, storedZip [(List.replicate 65536 'a', [])] = some bytes := by
  have hname := length_bytesOf_replicate 65536
  refine ⟨Nat.le_of_ble_eq_true rfl, ?_, fun ⟨bytes, hbytes⟩ ↦ ?_⟩
  · rw [archiveBytes_name, hname]
    omega
  · rw [storedZip_long_name (by rw [hname]; omega)] at hbytes
    cases hbytes

end Huntsman.Xlsx
