import Huntsman.Exif.Render
import Huntsman.Lib.Bytes

/-!
# The directories of an EXIF block

`decodeTiff` reads the directories of a TIFF block: the first, the Exif directory it points to, and
the GPS directory that one of them points to.  Every entry with a value that can be read and that
shows something is a field, and at most `maxMetadataFields` fields are kept, shared so that no
directory crowds out another; the rest are counted.

A directory says how many entries it has, and no more than `maxIfdEntries` of them are looked at.
Of those, each is kept or counted (`decodeTiff_fields`).  The entries after them are neither
(`not_decodeTiff_all`).

The position that is worked out of the GPS directory is not here.
-/

set_option autoImplicit false

namespace Huntsman.Exif

open List Option

open Canonical (Chars)

/-! ## The source -/

def maxIfdEntries : ℕ := 4096

def maxMetadataFields : ℕ := 512

structure Tiff where
  buf : List UInt8
  endian : Endian

namespace Tiff

variable (tiff : Tiff)

def u16 (offset : ℕ) : Option ℕ :=
  (Bytes.slice tiff.buf offset (offset + 2)).map tiff.endian.number

def u32 (offset : ℕ) : Option ℕ :=
  (Bytes.slice tiff.buf offset (offset + 4)).map tiff.endian.number

/-- The byte width of one value of a type. -/
def typeSize (typ : ℕ) : Option ℕ :=
  if typ ∈ [1, 2, 6, 7] then some 1
  else if typ ∈ [3, 8] then some 2
  else if typ ∈ [4, 9, 11] then some 4
  else if typ ∈ [5, 10, 12] then some 8
  else none

/-- The value of an entry, which stands in its last four bytes or where they point, and how many
bytes it declares. -/
def readValue (typ count field : ℕ) : Option (List UInt8 × ℕ) := do
  let unit ← typeSize typ
  let declared := count * unit
  let total := min declared maxExifValueBytes
  let place := if total ≤ 4 then some field else tiff.u32 field
  let offset ← place
  let bytes ← Bytes.slice tiff.buf offset (offset + total)
  return (bytes, declared)

/-- The entries at these places of a directory, up to one that is not in the block. -/
def readEntries (offset : ℕ) : List ℕ → List Entry
  | [] => []
  | index :: rest =>
    let place := offset + 2 + index * 12
    match tiff.u16 place, tiff.u16 (place + 2), tiff.u32 (place + 4) with
    | some tag, some typ, some count =>
      match tiff.readValue typ count (place + 8) with
      | some (value, declared) => ⟨tag, typ, value, declared⟩ :: readEntries offset rest
      | none => readEntries offset rest
    | _, _, _ => []

def readIfd (offset : ℕ) : List Entry :=
  match tiff.u16 offset with
  | none => []
  | some count => tiff.readEntries offset (List.range (min count maxIfdEntries))

/-- The offset that a pointer tag holds. -/
def pointer (entry : Entry) : Option ℕ :=
  if entry.value.length < 4 then none else some (tiff.endian.number (entry.value.take 4))

end Tiff

/-- The fields of one directory that are kept, and how many more it held. -/
structure Directory where
  fields : List (Chars × Chars) := []
  omitted : ℕ := 0

def Directory.push (d : Directory) (name value : Chars) : Directory :=
  let value := capValue value
  if value = [] then d
  else if d.fields.length < maxMetadataFields then { d with fields := d.fields ++ [(name, value)] }
  else { d with omitted := d.omitted + 1 }

/-- The places of three numbers, the least first, and equal ones in their order. -/
def smallestFirst (a b c : ℕ) : List ℕ :=
  if a ≤ b then if b ≤ c then [0, 1, 2] else if a ≤ c then [0, 2, 1] else [2, 0, 1]
  else if a ≤ c then [1, 0, 2] else if b ≤ c then [1, 2, 0] else [2, 1, 0]

/-- Each directory's share: the smallest take all of theirs, and the rest share what is left. -/
def shares (sizes : ℕ → ℕ) : List ℕ → ℕ → ℕ → ℕ
  | [], _ => fun _ ↦ 0
  | place :: rest, left =>
    let share := min (sizes place) (left / (rest.length + 1))
    Function.update (shares sizes rest (left - share)) place share

def shareFields (image camera position : Directory) : List (Chars × Chars) × ℕ :=
  let sizes : ℕ → ℕ := fun place ↦
    ([image, camera, position].map fun d ↦ d.fields.length).getD place 0
  let share := shares sizes (smallestFirst (sizes 0) (sizes 1) (sizes 2)) maxMetadataFields
  (image.fields.take (share 0) ++ camera.fields.take (share 1) ++ position.fields.take (share 2),
    image.omitted + image.fields.length - share 0 +
      (camera.omitted + camera.fields.length - share 1) +
      (position.omitted + position.fields.length - share 2))

/-- `tag_0xXXXX` for a tag with no name. -/
def unknownTag (tag : ℕ) : Chars :=
  let digits := Nat.toDigits 16 tag
  "tag_0x".toList ++ List.replicate (4 - digits.length) '0' ++ digits

/-- The name that a table has for a tag. -/
def tagName (table : List (ℕ × String)) (tag : ℕ) : Chars :=
  ((table.lookup tag).map String.toList).getD (unknownTag tag)

def ifd0TagName : ℕ → Chars := tagName
  [(0x0100, "ImageWidth"), (0x0101, "ImageLength"), (0x0102, "BitsPerSample"),
    (0x010E, "ImageDescription"), (0x010F, "Make"), (0x0110, "Model"), (0x0112, "Orientation"),
    (0x011A, "XResolution"), (0x011B, "YResolution"), (0x0128, "ResolutionUnit"),
    (0x0131, "Software"), (0x0132, "DateTime"), (0x013B, "Artist"), (0x8298, "Copyright"),
    (0x9C9B, "XPTitle"), (0x9C9C, "XPComment"), (0x9C9D, "XPAuthor"), (0x9C9E, "XPKeywords"),
    (0x9C9F, "XPSubject")]

def exifTagName : ℕ → Chars := tagName
  [(0x829A, "ExposureTime"), (0x829D, "FNumber"), (0x8822, "ExposureProgram"),
    (0x8827, "ISOSpeedRatings"), (0x9003, "DateTimeOriginal"), (0x9004, "DateTimeDigitized"),
    (0x9010, "OffsetTime"), (0x9011, "OffsetTimeOriginal"), (0x9012, "OffsetTimeDigitized"),
    (0x920A, "FocalLength"), (0x9286, "UserComment"), (0x9290, "SubSecTime"),
    (0x9291, "SubSecTimeOriginal"), (0x9292, "SubSecTimeDigitized"), (0xA002, "PixelXDimension"),
    (0xA003, "PixelYDimension"), (0xA402, "ExposureMode"), (0xA403, "WhiteBalance"),
    (0xA420, "ImageUniqueID"), (0xA430, "CameraOwnerName"), (0xA431, "BodySerialNumber"),
    (0xA433, "LensMake"), (0xA434, "LensModel"), (0xA435, "LensSerialNumber"),
    (0xA436, "ImageTitle"), (0xA437, "Photographer"), (0xA438, "ImageEditor")]

def gpsTagName : ℕ → Chars := tagName
  [(0x0000, "GPSVersionID"), (0x0001, "GPSLatitudeRef"), (0x0002, "GPSLatitude"),
    (0x0003, "GPSLongitudeRef"), (0x0004, "GPSLongitude"), (0x0005, "GPSAltitudeRef"),
    (0x0006, "GPSAltitude"), (0x0007, "GPSTimeStamp"), (0x0008, "GPSSatellites"),
    (0x0012, "GPSMapDatum"), (0x001B, "GPSProcessingMethod"), (0x001D, "GPSDateStamp")]

def exifPointer : ℕ := 0x8769

def gpsPointer : ℕ := 0x8825

/-- What is read of the first directory: its fields, and where the two others are. -/
def Tiff.readImage (tiff : Tiff) : List Entry → Directory × Option ℕ × Option ℕ :=
  List.foldl (fun (image, exifOffset, gpsOffset) entry ↦
    if entry.tag = exifPointer then (image, tiff.pointer entry, gpsOffset)
    else if entry.tag = gpsPointer then (image, exifOffset, tiff.pointer entry)
    else (image.push (ifd0TagName entry.tag) (namedValue tiff.endian entry), exifOffset, gpsOffset))
    ({}, none, none)

/-- What is read of the Exif directory, which may also say where the GPS directory is. -/
def Tiff.readCamera (tiff : Tiff) (gpsOffset : Option ℕ) : List Entry → Directory × Option ℕ :=
  List.foldl (fun (camera, gpsOffset) entry ↦
    if entry.tag = gpsPointer then (camera, gpsOffset.or (tiff.pointer entry))
    else (camera.push (exifTagName entry.tag) (namedValue tiff.endian entry), gpsOffset))
    ({}, gpsOffset)

def Tiff.decodeGps (tiff : Tiff) : List Entry → Directory :=
  List.foldl (fun position entry ↦
    position.push (gpsTagName entry.tag) (namedValue tiff.endian entry)) {}

structure Parsed where
  format : String
  fields : List (Chars × Chars)
  /-- Fields past `maxMetadataFields`, which are not kept. -/
  omitted : ℕ

/-- What the directories of a block hold, the first of which is at an offset. -/
def Tiff.decode (tiff : Tiff) (ifd0 : ℕ) (format : String) : Parsed :=
  let (image, exifOffset, gpsOffset) := tiff.readImage (tiff.readIfd ifd0)
  let (camera, gpsOffset) := match exifOffset with
    | some offset => tiff.readCamera gpsOffset (tiff.readIfd offset)
    | none => ({}, gpsOffset)
  let position := match gpsOffset with
    | some offset => tiff.decodeGps (tiff.readIfd offset)
    | none => {}
  let (fields, omitted) := shareFields image camera position
  ⟨format, fields, omitted⟩

def byteOrder (buf : List UInt8) : Option Endian :=
  match Bytes.slice buf 0 2 with
  | some [0x49, 0x49] => some .little
  | some [0x4D, 0x4D] => some .big
  | _ => none

def decodeTiff (buf : List UInt8) (format : String) : Except String Parsed :=
  match byteOrder buf with
  | none => .error "EXIF: bad TIFF byte order"
  | some endian =>
    let tiff : Tiff := ⟨buf, endian⟩
    if tiff.u16 2 ≠ some 42 then .error "EXIF: bad TIFF magic number"
    else
      match tiff.u32 4 with
      | none => .error "EXIF: truncated TIFF header"
      | some ifd0 => .ok (tiff.decode ifd0 format)

/-! ## The entries of a directory -/

namespace Tiff

variable (tiff : Tiff)

/-- The entry at a place of a directory, if it is in the block and has a value that can be read. -/
def entryAt (offset index : ℕ) : Option Entry := do
  let place := offset + 2 + index * 12
  let tag ← tiff.u16 place
  let typ ← tiff.u16 (place + 2)
  let count ← tiff.u32 (place + 4)
  let (value, declared) ← tiff.readValue typ count (place + 8)
  return ⟨tag, typ, value, declared⟩

/-- The entries of a directory, of which no more than `limit` are looked at. -/
def entries (limit offset : ℕ) : List Entry :=
  match tiff.u16 offset with
  | none => []
  | some count => (List.range (min count limit)).filterMap (tiff.entryAt offset)

variable {tiff} {offset index : ℕ}

theorem u16_eq_none : tiff.u16 offset = none ↔ tiff.buf.length < offset + 2 := by
  rw [u16, map_eq_none_iff, Bytes.slice]
  simp

theorem u32_eq_none : tiff.u32 offset = none ↔ tiff.buf.length < offset + 4 := by
  rw [u32, map_eq_none_iff, Bytes.slice]
  simp

theorem u32_lt {n : ℕ} (h : tiff.u32 offset = some n) : n < 2 ^ 32 := by
  obtain ⟨bytes, hbytes, rfl⟩ := map_eq_some_iff.1 h
  have hlength := Bytes.length_of_slice hbytes
  have hlength : bytes.length ≤ 4 := by omega
  exact number_lt_of_length hlength

theorem entryAt_eq_none (h : tiff.buf.length < offset + 2 + index * 12 + 8) :
    tiff.entryAt offset index = none := by
  rw [entryAt]
  rcases tiff.u16 (offset + 2 + index * 12) with _ | tag
  · rfl
  rcases tiff.u16 (offset + 2 + index * 12 + 2) with _ | typ
  · rfl
  rw [u32_eq_none.2 (by omega)]
  rfl

/-- A directory is read up to its first entry that is not in the block, after which there are no
more. -/
theorem readEntries_eq {indices : List ℕ} (h : indices.Pairwise (· ≤ ·)) :
    tiff.readEntries offset indices = indices.filterMap (tiff.entryAt offset) := by
  induction indices with
  | nil => rfl
  | cons index rest ih =>
    obtain ⟨hle, hrest⟩ := pairwise_cons.1 h
    have hnone : tiff.buf.length < offset + 2 + index * 12 + 8 →
        (index :: rest).filterMap (tiff.entryAt offset) = [] := by
      intro hshort
      refine filterMap_eq_nil_iff.2 fun other hother ↦ entryAt_eq_none ?_
      have hother : index ≤ other := by
        rcases mem_cons.1 hother with rfl | hother
        · exact le_refl _
        · exact hle other hother
      omega
    rw [readEntries]
    split
    · rename_i tag typ count htag htyp hcount
      have hentry : tiff.entryAt offset index =
          (tiff.readValue typ count (offset + 2 + index * 12 + 8)).map
            fun p ↦ ⟨tag, typ, p.1, p.2⟩ := by
        simp only [entryAt, htag, htyp, hcount, bind_eq_bind, bind_some]
        cases tiff.readValue typ count (offset + 2 + index * 12 + 8) <;> rfl
      split
      · rename_i value declared hvalue
        rw [ih hrest, filterMap_cons_some (by rw [hentry, hvalue]; rfl)]
      · rename_i hvalue
        rw [ih hrest, filterMap_cons_none (by rw [hentry, hvalue]; rfl)]
    · rename_i hheader
      refine (hnone ?_).symm
      by_contra hlong
      have hthere : ∀ place, place + 2 ≤ tiff.buf.length → ∃ n, tiff.u16 place = some n :=
        fun place hplace ↦ ne_none_iff_exists'.1 (mt u16_eq_none.1 (Nat.not_lt.2 hplace))
      obtain ⟨tag, htag⟩ := hthere (offset + 2 + index * 12) (by omega)
      obtain ⟨typ, htyp⟩ := hthere (offset + 2 + index * 12 + 2) (by omega)
      obtain ⟨count, hcount⟩ : ∃ n, tiff.u32 (offset + 2 + index * 12 + 4) = some n :=
        ne_none_iff_exists'.1 (mt u32_eq_none.1 (by omega))
      exact hheader tag typ count htag htyp hcount

theorem readIfd_eq : tiff.readIfd offset = tiff.entries maxIfdEntries offset := by
  rw [readIfd, entries]
  cases tiff.u16 offset with
  | none => rfl
  | some count => exact readEntries_eq pairwise_le_range

theorem typeSize_le {typ unit : ℕ} (h : typeSize typ = some unit) : unit ≤ 8 := by
  rw [typeSize] at h
  split_ifs at h <;> cases h <;> decide

/-- The value of an entry is as much of it as is declared, up to a bound. -/
theorem readable_of_entryAt {entry : Entry} (h : tiff.entryAt offset index = some entry) :
    entry.Readable := by
  simp only [entryAt, Option.bind_eq_bind, Option.bind_eq_some_iff, Option.pure_def,
    Option.some.injEq] at h
  obtain ⟨tag, -, typ, -, count, hcount, ⟨value, declared⟩, hvalue, rfl⟩ := h
  simp only [readValue, Option.bind_eq_bind, Option.bind_eq_some_iff, Option.pure_def,
    Option.some.injEq, Prod.mk.injEq] at hvalue
  obtain ⟨unit, hunit, place, -, bytes, hbytes, rfl, rfl⟩ := hvalue
  refine ⟨?_, ?_⟩
  · rw [Bytes.length_of_slice hbytes, Nat.add_sub_cancel_left]
  · calc
      count * unit ≤ count * 8 := Nat.mul_le_mul_left _ (typeSize_le hunit)
      _ < 2 ^ 64 := by have := u32_lt hcount; omega

theorem readable_of_mem {limit : ℕ} {entry : Entry} (h : entry ∈ tiff.entries limit offset) :
    entry.Readable := by
  rw [entries] at h
  split at h
  · cases h
  · obtain ⟨index, -, hentry⟩ := mem_filterMap.1 h
    exact readable_of_entryAt hentry

end Tiff

/-! ## The fields of a directory -/

/-- The field that an entry gives. -/
def fieldOf (endian : Endian) (names : ℕ → Chars) (entry : Entry) : Option (Chars × Chars) :=
  let value := capValue (namedValue endian entry)
  if value = [] then none else some (names entry.tag, value)

/-- The fields that those entries give that are kept for it. -/
def fieldsOf (endian : Endian) (names : ℕ → Chars) (keep : Entry → Bool) (entries : List Entry) :
    List (Chars × Chars) :=
  (entries.filter keep).filterMap (fieldOf endian names)

/-- A directory that has been given all these fields. -/
def Directory.of (own : List (Chars × Chars)) : Directory :=
  ⟨own.take maxMetadataFields, own.length - maxMetadataFields⟩

variable {endian : Endian} {names : ℕ → Chars} {keep : Entry → Bool} {entries : List Entry}

theorem Directory.of_nil : Directory.of [] = {} := by
  rw [Directory.of, take_nil, length_nil, Nat.zero_sub]

theorem push_of (own : List (Chars × Chars)) (entry : Entry) :
    (Directory.of own).push (names entry.tag) (namedValue endian entry) =
      .of (own ++ (fieldOf endian names entry).toList) := by
  rw [Directory.push, fieldOf]
  split
  · rw [toList_none, append_nil]
  · rw [toList_some]
    simp only [Directory.of, length_take, length_append, length_singleton,
      take_append]
    generalize maxMetadataFields = most
    rcases Nat.lt_or_ge own.length most with hlt | hge
    · have hone : [(names entry.tag, capValue (namedValue endian entry))].length ≤
          most - own.length := by
        rw [length_singleton]
        omega
      rw [if_pos (by omega), take_of_length_le hone]
      congr 1
      omega
    · rw [if_neg (by omega), Nat.sub_eq_zero_of_le hge, take_zero, append_nil]
      congr 1
      omega

theorem fieldsOf_append (entry : Entry) : fieldsOf endian names keep (entries ++ [entry]) =
    fieldsOf endian names keep entries ++
      if keep entry then (fieldOf endian names entry).toList else [] := by
  rw [fieldsOf, filter_append, filterMap_append, fieldsOf]
  cases hkeep : keep entry with
  | false => simp [hkeep]
  | true => cases hfield : fieldOf endian names entry <;> simp [hkeep, hfield]

namespace Tiff

variable (tiff : Tiff)

/-- Where the last entry with a tag points. -/
def lastPointer (tag : ℕ) (entries : List Entry) : Option ℕ :=
  (entries.filter fun entry ↦ entry.tag = tag).getLast?.bind tiff.pointer

/-- Where the first entry with a tag that points somewhere points. -/
def firstPointer (tag : ℕ) (entries : List Entry) : Option ℕ :=
  (entries.filter fun entry ↦ entry.tag = tag).findSome? tiff.pointer

variable {tiff} {tag : ℕ}

theorem lastPointer_append (entry : Entry) : tiff.lastPointer tag (entries ++ [entry]) =
    if entry.tag = tag then tiff.pointer entry else tiff.lastPointer tag entries := by
  rw [lastPointer, filter_append]
  split
  · rename_i htag
    rw [filter_singleton, decide_eq_true htag, cond_true, getLast?_concat,
      bind_some]
  · rename_i htag
    rw [filter_singleton, decide_eq_false htag, cond_false, append_nil,
      lastPointer]

theorem firstPointer_append (entry : Entry) : tiff.firstPointer tag (entries ++ [entry]) =
    if entry.tag = tag then (tiff.firstPointer tag entries).or (tiff.pointer entry)
    else tiff.firstPointer tag entries := by
  rw [firstPointer, filter_append]
  split
  · rename_i htag
    rw [filter_singleton, decide_eq_true htag, cond_true, findSome?_append,
      findSome?_singleton, firstPointer]
  · rename_i htag
    rw [filter_singleton, decide_eq_false htag, cond_false, append_nil,
      firstPointer]

def isImage (entry : Entry) : Bool := entry.tag ≠ exifPointer ∧ entry.tag ≠ gpsPointer

def isCamera (entry : Entry) : Bool := entry.tag ≠ gpsPointer

theorem readImage_eq : tiff.readImage entries =
    (.of (fieldsOf tiff.endian ifd0TagName isImage entries), tiff.lastPointer exifPointer entries,
      tiff.lastPointer gpsPointer entries) := by
  induction entries using reverseRecOn with
  | nil =>
    rw [fieldsOf, filter_nil, filterMap_nil, Directory.of_nil]
    rfl
  | append_singleton entries entry ih =>
    rw [readImage] at ih ⊢
    rw [foldl_append, ih, foldl_cons, foldl_nil, fieldsOf_append,
      lastPointer_append, lastPointer_append]
    by_cases hexif : entry.tag = exifPointer
    · have hgps : entry.tag ≠ gpsPointer := by
        rw [hexif]
        decide
      have hkeep : isImage entry = false := by simp [isImage, hexif]
      simp only [if_pos hexif, if_neg hgps, hkeep, Bool.false_eq_true, if_false, append_nil]
    · by_cases hgps : entry.tag = gpsPointer
      · have hkeep : isImage entry = false := by simp [isImage, hgps]
        simp only [if_neg hexif, if_pos hgps, hkeep, Bool.false_eq_true, if_false, append_nil]
      · have hkeep : isImage entry = true := by simp [isImage, hexif, hgps]
        simp only [if_neg hexif, if_neg hgps, push_of, hkeep, if_true]

theorem readCamera_eq (gpsOffset : Option ℕ) : tiff.readCamera gpsOffset entries =
    (.of (fieldsOf tiff.endian exifTagName isCamera entries),
      gpsOffset.or (tiff.firstPointer gpsPointer entries)) := by
  induction entries using reverseRecOn with
  | nil =>
    rw [fieldsOf, filter_nil, filterMap_nil, Directory.of_nil]
    exact congrArg _ Option.or_none.symm
  | append_singleton entries entry ih =>
    rw [readCamera] at ih ⊢
    rw [foldl_append, ih, foldl_cons, foldl_nil, fieldsOf_append,
      firstPointer_append]
    by_cases hgps : entry.tag = gpsPointer
    · have hkeep : isCamera entry = false := by simp [isCamera, hgps]
      simp only [if_pos hgps, hkeep, Bool.false_eq_true, if_false, append_nil,
        Option.or_assoc]
    · have hkeep : isCamera entry = true := by simp [isCamera, hgps]
      simp only [if_neg hgps, push_of, hkeep, if_true]

theorem decodeGps_eq :
    tiff.decodeGps entries = .of (fieldsOf tiff.endian gpsTagName (fun _ ↦ true) entries) := by
  induction entries using reverseRecOn with
  | nil =>
    rw [fieldsOf, filter_nil, filterMap_nil, Directory.of_nil]
    rfl
  | append_singleton entries entry ih =>
    rw [decodeGps] at ih ⊢
    rw [foldl_append, ih, foldl_cons, foldl_nil, fieldsOf_append, push_of,
      if_pos rfl]

end Tiff

/-! ## Shares -/

/-- **Each of three directories has a fair share of what is kept**, and all are whole when there is
room for them. -/
theorem shares_spec (sizes : ℕ → ℕ) (most : ℕ) :
    let share := shares sizes (smallestFirst (sizes 0) (sizes 1) (sizes 2)) most
    share 0 + share 1 + share 2 ≤ most ∧
      (∀ place < 3, share place ≤ sizes place ∧ min (sizes place) (most / 3) ≤ share place) ∧
      (sizes 0 + sizes 1 + sizes 2 ≤ most → ∀ place < 3, share place = sizes place) := by
  have hplaces : ∀ P : ℕ → Prop, (∀ place < 3, P place) ↔ P 0 ∧ P 1 ∧ P 2 := by
    intro P
    refine ⟨fun h ↦ ⟨h 0 (by decide), h 1 (by decide), h 2 (by decide)⟩, ?_⟩
    rintro ⟨h0, h1, h2⟩ place hplace
    obtain rfl | rfl | rfl : place = 0 ∨ place = 1 ∨ place = 2 := by omega
    · exact h0
    · exact h1
    · exact h2
  simp only [hplaces]
  rw [smallestFirst]
  split_ifs <;> simp [shares] <;> omega

theorem shareFields_of (image camera position : List (Chars × Chars)) :
    ∃ a b c, shareFields (.of image) (.of camera) (.of position) =
        (image.take a ++ camera.take b ++ position.take c,
          image.length - a + (camera.length - b) + (position.length - c)) ∧
      a + b + c ≤ maxMetadataFields ∧
      (a ≤ image.length ∧ min image.length (maxMetadataFields / 3) ≤ a) ∧
      (b ≤ camera.length ∧ min camera.length (maxMetadataFields / 3) ≤ b) ∧
      (c ≤ position.length ∧ min position.length (maxMetadataFields / 3) ≤ c) ∧
      (image.length + camera.length + position.length ≤ maxMetadataFields →
        a = image.length ∧ b = camera.length ∧ c = position.length) := by
  obtain ⟨hsum, hshare, hwhole⟩ := shares_spec (fun place ↦
    ([.of image, .of camera, .of position].map fun d : Directory ↦ d.fields.length).getD place 0)
    maxMetadataFields
  obtain ⟨ha, ha'⟩ := hshare 0 (by decide)
  obtain ⟨hb, hb'⟩ := hshare 1 (by decide)
  obtain ⟨hc, hc'⟩ := hshare 2 (by decide)
  have hall := fun h ↦ And.intro (hwhole h 0 (by decide))
    (And.intro (hwhole h 1 (by decide)) (hwhole h 2 (by decide)))
  clear hshare hwhole
  rw [shareFields]
  simp only at *
  generalize shares _ _ _ = share at *
  simp only [map_cons, getD_cons_zero, getD_cons_succ, Directory.of,
    length_take] at *
  generalize maxMetadataFields = most at *
  refine ⟨share 0, share 1, share 2, ?_, hsum, ⟨by omega, by omega⟩, ⟨by omega, by omega⟩,
    ⟨by omega, by omega⟩, fun htotal ↦ ?_⟩
  · have hleft : ∀ {n s : ℕ}, s ≤ min most n → n - most + min most n - s = n - s ∧
        min s most = s := by
      intro n s hs
      omega
    rw [take_take, take_take, take_take, (hleft ha).1, (hleft hb).1, (hleft hc).1,
      (hleft ha).2, (hleft hb).2, (hleft hc).2]
  · obtain ⟨h0, h1, h2⟩ := hall (by omega)
    omega

/-! ## What is meant -/

namespace Tiff

variable (tiff : Tiff) (limit ifd0 : ℕ)

/-- The entries of the Exif directory, if the first directory points to it. -/
def cameraEntries : List Entry :=
  (tiff.lastPointer exifPointer (tiff.entries limit ifd0)).elim [] (tiff.entries limit)

/-- The entries of the GPS directory, if one of the others points to it. -/
def positionEntries : List Entry :=
  ((tiff.lastPointer gpsPointer (tiff.entries limit ifd0)).or
    (tiff.firstPointer gpsPointer (tiff.cameraEntries limit ifd0))).elim [] (tiff.entries limit)

/-- The fields of each directory. -/
def contents : List (List (Chars × Chars)) :=
  [fieldsOf tiff.endian ifd0TagName isImage (tiff.entries limit ifd0),
    fieldsOf tiff.endian exifTagName isCamera (tiff.cameraEntries limit ifd0),
    fieldsOf tiff.endian gpsTagName (fun _ ↦ true) (tiff.positionEntries limit ifd0)]

end Tiff

/-- What is meant by the fields of a block whose first directory is at an offset, when `limit`
entries of a directory are looked at. -/
structure Keeps (limit : ℕ) (tiff : Tiff) (ifd0 : ℕ) (parsed : Parsed) : Prop where
  counted : parsed.fields.length + parsed.omitted = (tiff.contents limit ifd0).flatten.length
  length_le : parsed.fields.length ≤ 512
  kept : ∃ kept, parsed.fields = kept.flatten ∧ List.Forall₂ (fun kept own ↦
    kept <+: own ∧ min own.length 170 ≤ kept.length) kept (tiff.contents limit ifd0)
  whole : (tiff.contents limit ifd0).flatten.length ≤ 512 → parsed.omitted = 0
  lists : ∀ entry ∈ tiff.entries limit ifd0 ++ tiff.cameraEntries limit ifd0 ++
    tiff.positionEntries limit ifd0, ∀ l ∈ listingOf tiff.endian entry,
      l.Shows (capValue (namedValue tiff.endian entry))

theorem decode_eq (tiff : Tiff) (ifd0 : ℕ) (format : String) : ∃ image camera position,
    tiff.contents maxIfdEntries ifd0 = [image, camera, position] ∧
      tiff.decode ifd0 format =
        ⟨format, (shareFields (.of image) (.of camera) (.of position)).1,
          (shareFields (.of image) (.of camera) (.of position)).2⟩ := by
  refine ⟨_, _, _, rfl, ?_⟩
  rw [Tiff.decode, Tiff.positionEntries, Tiff.cameraEntries]
  simp only [Tiff.readIfd_eq, Tiff.readImage_eq]
  have hnone : ∀ names keep, Directory.of (fieldsOf tiff.endian names keep []) = {} :=
    fun _ _ ↦ Directory.of_nil
  cases tiff.lastPointer exifPointer (tiff.entries maxIfdEntries ifd0) with
  | none =>
    simp only [elim_none, hnone, Tiff.firstPointer, filter_nil, findSome?_nil,
      or_none]
    cases tiff.lastPointer gpsPointer (tiff.entries maxIfdEntries ifd0) with
    | none => simp only [elim_none, hnone]
    | some offset => simp only [elim_some, Tiff.decodeGps_eq]
  | some offset =>
    simp only [elim_some, Tiff.readCamera_eq]
    cases (tiff.lastPointer gpsPointer (tiff.entries maxIfdEntries ifd0)).or
      (tiff.firstPointer gpsPointer (tiff.entries maxIfdEntries offset)) with
    | none => simp only [elim_none, hnone]
    | some offset => simp only [elim_some, Tiff.decodeGps_eq]

theorem readable_of_mem_elim {tiff : Tiff} {limit : ℕ} {offset : Option ℕ} {entry : Entry}
    (h : entry ∈ offset.elim [] (tiff.entries limit)) : entry.Readable := by
  cases offset with
  | none => cases h
  | some offset => exact Tiff.readable_of_mem h

theorem decode_keeps (tiff : Tiff) (ifd0 : ℕ) (format : String) :
    Keeps maxIfdEntries tiff ifd0 (tiff.decode ifd0 format) := by
  obtain ⟨image, camera, position, hcontents, hdecode⟩ := decode_eq tiff ifd0 format
  obtain ⟨a, b, c, hshare, hsum, ⟨ha, ha'⟩, ⟨hb, hb'⟩, ⟨hc, hc'⟩, hwhole⟩ :=
    shareFields_of image camera position
  have hthird : maxMetadataFields / 3 = 170 := by decide
  have hmost : maxMetadataFields = 512 := rfl
  have htotal : [image, camera, position].flatten.length =
      image.length + camera.length + position.length := by
    simp [Nat.add_assoc]
  have hkept : (image.take a ++ camera.take b ++ position.take c).length = a + b + c := by
    simp
    omega
  rw [hdecode, hshare]
  refine ⟨?_, ?_, ?_, ?_, fun entry hentry l hl ↦ ?_⟩
  · rw [hcontents, htotal, hkept]
    simp only
    omega
  · rw [hkept]
    omega
  · refine ⟨[image.take a, camera.take b, position.take c], by simp, ?_⟩
    rw [hcontents]
    have hfair : ∀ {own : List (Chars × Chars)} {n : ℕ},
        min own.length (maxMetadataFields / 3) ≤ n →
          own.take n <+: own ∧ min own.length 170 ≤ (own.take n).length := by
      intro own n hn
      refine ⟨List.take_prefix _ _, ?_⟩
      rw [length_take]
      omega
    exact .cons (hfair ha') (.cons (hfair hb') (.cons (hfair hc') .nil))
  · intro hfew
    rw [hcontents, htotal] at hfew
    obtain ⟨rfl, rfl, rfl⟩ := hwhole (by omega)
    simp
  · have hreadable : entry.Readable := by
      rcases mem_append.1 hentry with hentry | hentry
      · rcases mem_append.1 hentry with hentry | hentry
        · exact Tiff.readable_of_mem hentry
        · exact readable_of_mem_elim hentry
      · exact readable_of_mem_elim hentry
    obtain ⟨hfit, hvalue⟩ := fit_of_listingOf hreadable hl
    rw [hvalue]
    exact hfit.shows

variable {buf : List UInt8} {format : String} {parsed : Parsed}

theorem decodeTiff_eq_ok : decodeTiff buf format = .ok parsed ↔ ∃ endian ifd0,
    byteOrder buf = some endian ∧ Tiff.u16 ⟨buf, endian⟩ 2 = some 42 ∧
      Tiff.u32 ⟨buf, endian⟩ 4 = some ifd0 ∧ parsed = Tiff.decode ⟨buf, endian⟩ ifd0 format := by
  rw [decodeTiff]
  constructor
  · intro h
    split at h
    · cases h
    · rename_i endian hendian
      simp only at h
      split at h
      · cases h
      · rename_i hmagic
        split at h
        · cases h
        · rename_i ifd0 hifd0
          exact ⟨endian, ifd0, hendian, Decidable.not_not.1 hmagic, hifd0, (Except.ok.inj h).symm⟩
  · rintro ⟨endian, ifd0, hendian, hmagic, hifd0, rfl⟩
    rw [hendian]
    simp only
    rw [if_neg (not_not.2 hmagic), hifd0]

/-- **No field of an entry that is looked at is lost uncounted**: each is kept or counted, the kept
ones are a fair share of each directory's first ones, and a list among the values is shown whole or
says how long it is. -/
theorem decodeTiff_fields (h : decodeTiff buf format = .ok parsed) : ∃ endian ifd0,
    byteOrder buf = some endian ∧ Tiff.u32 ⟨buf, endian⟩ 4 = some ifd0 ∧
      Keeps maxIfdEntries ⟨buf, endian⟩ ifd0 parsed := by
  obtain ⟨endian, ifd0, hendian, -, hifd0, rfl⟩ := decodeTiff_eq_ok.1 h
  exact ⟨endian, ifd0, hendian, hifd0, decode_keeps _ _ _⟩

/-- A block whose first directory has so many entries, each an image width of zero. -/
def widths (count : UInt16) : List UInt8 :=
  [0x49, 0x49, 42, 0, 8, 0, 0, 0] ++ [UInt8.ofNat count.toNat, UInt8.ofNat (count.toNat / 256)] ++
    (List.replicate count.toNat ()).flatMap fun _ ↦ [0, 1, 3, 0, 1, 0, 0, 0, 0, 0, 0, 0]

theorem decodeTiff_width : ∃ endian ifd0, byteOrder (widths 1) = some endian ∧
    Tiff.u32 ⟨widths 1, endian⟩ 4 = some ifd0 ∧ Keeps maxIfdEntries ⟨widths 1, endian⟩ ifd0
      ⟨"TIFF", [("ImageWidth".toList, "0".toList)], 0⟩ :=
  decodeTiff_fields (show decodeTiff (widths 1) "TIFF" = .ok _ by rfl)

theorem widths_parts (count : UInt16) : Bytes.Holds (widths count) 0
    ([0x49, 0x49] ++ ([42, 0] ++ ([8, 0, 0, 0] ++
      ([UInt8.ofNat count.toNat, UInt8.ofNat (count.toNat / 256)] ++
        (List.replicate count.toNat ()).flatMap
          fun _ ↦ [0, 1, 3, 0, 1, 0, 0, 0, 0, 0, 0, 0])))) := by
  have hall := Bytes.holds_self (widths count) []
  rw [append_nil] at hall
  exact hall

theorem widths_opens (count : UInt16) : byteOrder (widths count) = some .little ∧
    Tiff.u16 ⟨widths count, .little⟩ 2 = some 42 ∧
      Tiff.u32 ⟨widths count, .little⟩ 4 = some 8 := by
  have hparts := widths_parts count
  refine ⟨?_, congrArg (Option.map _) hparts.right.left.slice,
    congrArg (Option.map _) hparts.right.right.left.slice⟩
  have horder : Bytes.slice (widths count) 0 2 = some [0x49, 0x49] := hparts.left.slice
  rw [byteOrder, horder]
  rfl

theorem widths_entryAt (count : UInt16) {index : ℕ} (h : index < count.toNat) :
    Tiff.entryAt ⟨widths count, .little⟩ 8 index = some ⟨0x100, 3, [0, 0], 2⟩ := by
  have hentry := (widths_parts count).right.right.right.right.flatMap
    (fun _ ↦ (rfl : [0, 1, 3, 0, 1, 0, 0, 0, 0, 0, 0, (0 : UInt8)].length = 12))
    (getElem?_replicate_of_lt h)
  generalize hplace : 8 + 2 + index * 12 = place
  have hparts : Bytes.Holds (widths count) place
      ([0, 1] ++ ([3, 0] ++ ([1, 0, 0, 0] ++ ([0, 0] ++ [0, 0])))) := hplace ▸ hentry
  have htag : Tiff.u16 ⟨widths count, .little⟩ place = some 0x100 :=
    congrArg (Option.map _) hparts.left.slice
  have htyp : Tiff.u16 ⟨widths count, .little⟩ (place + 2) = some 3 :=
    congrArg (Option.map _) hparts.right.left.slice
  have hcount : Tiff.u32 ⟨widths count, .little⟩ (place + 4) = some 1 :=
    congrArg (Option.map _) hparts.right.right.left.slice
  have hslice : Bytes.slice (widths count) (place + 8) (place + 8 + 2) = some [0, 0] :=
    hparts.right.right.right.left.slice
  have hvalue : Tiff.readValue ⟨widths count, .little⟩ 3 1 (place + 8) = some ([0, 0], 2) := by
    have hsize : Tiff.typeSize 3 = some 2 := by decide
    have hshort : min (1 * 2) maxExifValueBytes = 2 := by decide
    simp only [Tiff.readValue, hsize, Option.bind_eq_bind, Option.bind_some, hshort]
    rw [if_pos (by decide), Option.bind_some, hslice]
    rfl
  simp only [Tiff.entryAt, hplace, htag, htyp, hcount, hvalue, Option.bind_eq_bind,
    Option.bind_some]
  rfl

/-- All of its entries give a field, as far as they are looked at. -/
theorem widths_contents (count : UInt16) (limit : ℕ) :
    (Tiff.contents ⟨widths count, .little⟩ limit 8).flatten.length = min count.toNat limit := by
  have hsize : Tiff.u16 ⟨widths count, .little⟩ 8 = some count.toNat := by
    have hnumber : Tiff.u16 ⟨widths count, .little⟩ 8 =
        some (Endian.little.number [UInt8.ofNat count.toNat, UInt8.ofNat (count.toNat / 256)]) :=
      congrArg (Option.map _) (widths_parts count).right.right.right.left.slice
    have hlt := count.toNat_lt
    rw [hnumber, Endian.number]
    simp only [foldr_cons, foldr_nil, UInt8.toNat_ofNat', Option.some.injEq]
    omega
  have hentries : Tiff.entries ⟨widths count, .little⟩ limit 8 =
      replicate (min count.toNat limit) ⟨0x100, 3, [0, 0], 2⟩ := by
    rw [Tiff.entries, hsize]
    simp only
    have hall : ∀ index ∈ range (min count.toNat limit),
        Tiff.entryAt ⟨widths count, .little⟩ 8 index =
          (some ∘ fun _ ↦ (⟨0x100, 3, [0, 0], 2⟩ : Entry)) index := fun index hindex ↦
      widths_entryAt count ((mem_range.1 hindex).trans_le (Nat.min_le_left _ _))
    rw [filterMap_congr hall, filterMap_eq_map, map_const', length_range]
  have hfield : fieldOf .little ifd0TagName ⟨0x100, 3, [0, 0], 2⟩ =
      some ("ImageWidth".toList, "0".toList) := by rfl
  have hpointer : ∀ tag ≠ 0x100, Tiff.lastPointer ⟨widths count, .little⟩ tag
      (replicate (min count.toNat limit) ⟨0x100, 3, [0, 0], 2⟩) = none := by
    intro tag htag
    rw [Tiff.lastPointer, filter_replicate_of_neg]
    · rfl
    · simpa using Ne.symm htag
  rw [Tiff.contents, Tiff.positionEntries, Tiff.cameraEntries, hentries, hpointer _ (by decide),
    hpointer _ (by decide)]
  rw [fieldsOf, filter_replicate_of_pos (by decide), filterMap_replicate_of_some hfield]
  simp [Tiff.firstPointer, fieldsOf]

/-- An entry after those that are looked at is neither kept nor counted. -/
theorem not_decodeTiff_all : ¬ ∀ buf format parsed, decodeTiff buf format = .ok parsed →
    ∃ endian ifd0, byteOrder buf = some endian ∧ Tiff.u32 ⟨buf, endian⟩ 4 = some ifd0 ∧
      Keeps (2 ^ 16) ⟨buf, endian⟩ ifd0 parsed := by
  intro h
  obtain ⟨horder, hmagic, hifd0⟩ := widths_opens 4097
  obtain ⟨endian, ifd0, hendian, hstart, hkeeps⟩ := h (widths 4097) "TIFF" _
    (decodeTiff_eq_ok.2 ⟨_, _, horder, hmagic, hifd0, rfl⟩)
  obtain rfl := some.inj (horder.symm.trans hendian)
  obtain rfl := some.inj (hifd0.symm.trans hstart)
  have hcounted := (decode_keeps ⟨widths 4097, .little⟩ 8 "TIFF").counted.symm.trans hkeeps.counted
  rw [widths_contents, widths_contents] at hcounted
  exact absurd hcounted (by decide)

end Huntsman.Exif
