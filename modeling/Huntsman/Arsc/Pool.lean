import Huntsman.Axml.Strings

/-!
# The string pool of a resource table

A resource table has its strings in a pool chunk like the one of a compiled manifest, and the two
are read by two readers.  The manifest's reader takes all the strings at once, from the whole file,
and makes an empty string of what it cannot read.  `StringPool.get` reads one string, from the chunk
alone, and gives none where there is anything wrong with it.

`PoolAt` says what a pool is, and `readers_agree` that both readers read it.
-/

set_option autoImplicit false

namespace Huntsman.Arsc

open Bytes List Option
open Apk (le16 le32)
open Axml (Chunk stringPoolType units)

/-- A resolved label longer than this is refused. -/
def maxLabelBytes : ℕ := 512

/-- The type of a chunk, the size of its header and its whole size. -/
def chunk (data : List UInt8) (pos limit : ℕ) : Option Chunk := do
  let kind ← le16 data pos
  let header ← le16 data (pos + 2)
  let size ← le32 data (pos + 4)
  if header.toNat < 8 ∨ size.toNat < header.toNat ∨ limit < pos + size.toNat then none
  else return (kind.toNat, header.toNat, size.toNat)

/-- A length of one byte, or of two with the high bit of the first set, and how many bytes it
takes. -/
def len8 (data : List UInt8) (pos : ℕ) : Option (ℕ × ℕ) := do
  let first ← data[pos]?
  if first.toNat < 0x80 then return (first.toNat, 1)
  else
    let second ← data[pos + 1]?
    return (256 * (first.toNat % 0x80) + second.toNat, 2)

def len16 (data : List UInt8) (pos : ℕ) : Option (ℕ × ℕ) := do
  let first ← le16 data pos
  if first.toNat < 0x8000 then return (first.toNat, 2)
  else
    let second ← le16 data (pos + 2)
    return (65536 * (first.toNat % 0x8000) + second.toNat, 4)

/-- The characters of `String::from_utf16`: none, if a surrogate is not one of a pair. -/
def utf16Chars : List UInt16 → Option (List Char)
  | [] => some []
  | [u] => if 0xD800 ≤ u.toNat ∧ u.toNat ≤ 0xDFFF then none else some [Char.ofNat u.toNat]
  | u :: v :: rest =>
    if u.toNat < 0xD800 ∨ 0xDFFF < u.toNat then
      (utf16Chars (v :: rest)).map (Char.ofNat u.toNat :: ·)
    else if u.toNat ≤ 0xDBFF ∧ 0xDC00 ≤ v.toNat ∧ v.toNat ≤ 0xDFFF then
      (utf16Chars rest).map
        (Char.ofNat (0x10000 + 0x400 * (u.toNat - 0xD800) + (v.toNat - 0xDC00)) :: ·)
    else none

def fromUtf16 (us : List UInt16) : Option String := (utf16Chars us).map String.ofList

/-- A located pool. -/
structure StringPool where
  /-- The chunk's own bytes. -/
  chunk : List UInt8
  count : ℕ
  offsetsAt : ℕ
  stringsAt : ℕ
  utf8 : Bool
deriving DecidableEq

/-- The string at a position of the chunk. -/
def stringAt (chunk : List UInt8) (pos : ℕ) (utf8 : Bool) : Option String :=
  if utf8 then do
    let chars ← len8 chunk pos
    let bytes ← len8 chunk (pos + chars.2)
    let start := pos + chars.2 + bytes.2
    if maxLabelBytes < bytes.1 then none
    else
      let raw ← slice chunk start (start + bytes.1)
      Text.fromUtf8 raw
  else do
    let length ← len16 chunk pos
    let start := pos + length.2
    if maxLabelBytes < 2 * length.1 then none
    else
      let raw ← slice chunk start (start + 2 * length.1)
      fromUtf16 (units raw)

namespace StringPool

/-- The `i`th string. -/
def get (pool : StringPool) (i : ℕ) : Option String :=
  if pool.count ≤ i then none
  else do
    let offset ← le32 pool.chunk (pool.offsetsAt + 4 * i)
    stringAt pool.chunk (pool.stringsAt + offset.toNat) pool.utf8

/-- The pool that starts at `pos`. -/
def parse (data : List UInt8) (pos limit : ℕ) : Option StringPool := do
  let (kind, header, size) ← Arsc.chunk data pos limit
  if kind ≠ stringPoolType then none
  else
    let count ← le32 data (pos + 8)
    let flags ← le32 data (pos + 16)
    let stringsStart ← le32 data (pos + 20)
    if size < stringsStart.toNat then none
    else
      let chunk ← slice data pos (pos + size)
      return ⟨chunk, count.toNat, header, stringsStart.toNat, flags.toNat.testBit 8⟩

end StringPool

/-! ## A part of the data -/

variable {data body : List UInt8} {pos limit a b i : ℕ} {utf8 : Bool} {s : String}

/-- A slice is what is left of the data up to its end. -/
theorem slice_eq_drop_take {part : List UInt8} (h : slice data a b = some part) :
    part = (data.take b).drop a ∧ a ≤ b ∧ b ≤ data.length := by
  rw [slice] at h
  split_ifs at h with hin
  rw [← some.inj h, drop_take]
  exact ⟨rfl, hin⟩

theorem slice_drop (h : pos ≤ body.length) :
    slice (body.drop pos) a b = slice body (pos + a) (pos + b) := by
  rw [slice, slice, length_drop, drop_drop]
  by_cases hab : a ≤ b ∧ b ≤ body.length - pos
  · rw [if_pos hab, if_pos (by omega), Nat.add_sub_add_left]
  · rw [if_neg hab, if_neg (by omega)]

theorem slice_of_take {n : ℕ} {part : List UInt8} (h : slice (body.take n) a b = some part) :
    slice body a b = some part := by
  obtain ⟨rfl, hab, hb⟩ := slice_eq_drop_take h
  rw [length_take] at hb
  rw [slice, if_pos ⟨hab, by omega⟩, take_take, ← drop_take, Nat.min_eq_left (by omega)]

theorem le16_drop (h : pos ≤ body.length) : le16 (body.drop pos) a = le16 body (pos + a) := by
  rw [le16, le16, slice_drop h, Nat.add_assoc]

theorem le32_drop (h : pos ≤ body.length) : le32 (body.drop pos) a = le32 body (pos + a) := by
  rw [le32, le32, slice_drop h, Nat.add_assoc]

theorem len8_drop (body : List UInt8) (pos a : ℕ) :
    len8 (body.drop pos) a = Axml.utf8Length body (pos + a) := by
  rw [len8, getElem?_drop, getElem?_drop]
  rfl

theorem len16_drop (h : pos ≤ body.length) :
    len16 (body.drop pos) a = Axml.utf16Length body (pos + a) := by
  rw [len16, le16_drop h, le16_drop h]
  rfl

theorem le16_inside {w : UInt16} (h : le16 body a = some w) : a + 2 ≤ body.length := by
  rw [le16] at h
  split at h
  · rename_i hslice
    exact (slice_eq_drop_take hslice).2.2
  · cases h

theorem le32_of_take {n : ℕ} {w : UInt32} (h : le32 (body.take n) a = some w) :
    le32 body a = some w := by
  rw [le32] at h ⊢
  split at h
  · rename_i hslice
    rw [slice_of_take hslice]
    exact h
  · cases h

/-! ## One string -/

theorem fromUtf8_lossy {bytes : List UInt8} (h : Text.fromUtf8 bytes = some s) :
    Text.fromUtf8Lossy bytes = s := by
  rw [← Text.fromUtf8_eq_some.1 h, Text.fromUtf8Lossy_utf8]

/-- Text without a mistake is what the reader that makes up for mistakes makes of it. -/
theorem utf16Chars_lossy {us : List UInt16} {chars : List Char} (h : utf16Chars us = some chars) :
    Axml.utf16Chars us = chars := by
  induction us using utf16Chars.induct generalizing chars with
  | case1 => exact some.inj h
  | case2 u hu =>
    rw [utf16Chars, if_pos hu] at h
    cases h
  | case3 u hu =>
    rw [utf16Chars, if_neg hu] at h
    rw [Axml.utf16Chars, if_neg hu]
    exact some.inj h
  | case4 u v rest hu ih =>
    rw [utf16Chars, if_pos hu] at h
    obtain ⟨others, hothers, rfl⟩ := map_eq_some_iff.1 h
    rw [Axml.utf16Chars, if_pos hu, ih hothers]
  | case5 u v rest hu huv ih =>
    rw [utf16Chars, if_neg hu, if_pos huv] at h
    obtain ⟨others, hothers, rfl⟩ := map_eq_some_iff.1 h
    rw [Axml.utf16Chars, if_neg hu, if_pos huv, ih hothers]
  | case6 u v rest hu huv =>
    rw [utf16Chars, if_neg hu, if_neg huv] at h
    cases h

theorem fromUtf16_lossy {us : List UInt16} (h : fromUtf16 us = some s) :
    Axml.fromUtf16Lossy us = s := by
  obtain ⟨chars, hchars, rfl⟩ := map_eq_some_iff.1 h
  rw [Axml.fromUtf16Lossy, utf16Chars_lossy hchars]

/-- **What one reader takes for a string the other does too.** -/
theorem poolString_of_stringAt (h : pos ≤ body.length)
    (hs : stringAt (body.drop pos) a utf8 = some s) :
    Axml.poolString body (pos + a) utf8 = some s := by
  cases utf8 with
  | true =>
    rw [stringAt, if_pos rfl, len8_drop] at hs
    obtain ⟨chars, hchars, hs⟩ := bind_eq_some_iff.1 hs
    rw [len8_drop] at hs
    obtain ⟨bytes, hbytes, hs⟩ := bind_eq_some_iff.1 hs
    split_ifs at hs
    dsimp only at hs
    rw [slice_drop h] at hs
    obtain ⟨raw, hraw, hs⟩ := bind_eq_some_iff.1 hs
    rw [Axml.poolString, if_pos rfl, hchars]
    simp only [bind_eq_bind, bind_some, Nat.add_assoc] at hbytes hraw ⊢
    rw [hbytes]
    simp only [bind_some, hraw, fromUtf8_lossy hs]
    rfl
  | false =>
    rw [stringAt, if_neg Bool.false_ne_true, len16_drop h] at hs
    obtain ⟨length, hlength, hs⟩ := bind_eq_some_iff.1 hs
    split_ifs at hs
    dsimp only at hs
    rw [slice_drop h] at hs
    obtain ⟨raw, hraw, hs⟩ := bind_eq_some_iff.1 hs
    rw [Axml.poolString, if_neg Bool.false_ne_true, hlength]
    simp only [bind_eq_bind, bind_some, Nat.add_assoc] at hraw ⊢
    simp only [hraw, bind_some, fromUtf16_lossy hs]
    rfl

/-- A string that is read starts inside. -/
theorem poolString_inside (h : Axml.poolString body a utf8 = some s) : a < body.length := by
  cases utf8 with
  | true =>
    rw [Axml.poolString, if_pos rfl] at h
    obtain ⟨chars, hchars, -⟩ := bind_eq_some_iff.1 h
    obtain ⟨first, hfirst, -⟩ := bind_eq_some_iff.1 hchars
    exact (List.getElem?_eq_some_iff.1 hfirst).1
  | false =>
    rw [Axml.poolString, if_neg Bool.false_ne_true] at h
    obtain ⟨length, hlength, -⟩ := bind_eq_some_iff.1 h
    obtain ⟨first, hfirst, -⟩ := bind_eq_some_iff.1 hlength
    have hle := le16_inside hfirst
    omega

/-! ## What is written is read -/

theorem utf16Chars_cons {u : UInt16} (h : u.toNat < 0xD800 ∨ 0xDFFF < u.toNat) (rest : List UInt16) :
    utf16Chars (u :: rest) = (utf16Chars rest).map (Char.ofNat u.toNat :: ·) := by
  rcases rest with _ | ⟨v, rest⟩
  · simp only [utf16Chars]
    rw [if_neg (by omega), map_some]
  · rw [utf16Chars, if_pos h]

/-- **UTF-16 that is written is without a mistake.** -/
theorem utf16Chars_flatMap (chars : List Char) :
    utf16Chars (chars.flatMap Axml.utf16Char) = some chars := by
  induction chars with
  | nil => rfl
  | cons c rest ih =>
    have hvalid : c.toNat < 0xD800 ∨ 0xDFFF < c.toNat ∧ c.toNat < 0x110000 := c.valid
    rw [flatMap_cons]
    by_cases hsmall : c.toNat < 0x10000
    · have hunit : (UInt16.ofNat c.toNat).toNat = c.toNat := Axml.toNat_ofNat16 hsmall
      rw [Axml.utf16Char, if_pos hsmall, singleton_append, utf16Chars_cons (by rw [hunit]; omega),
        hunit, Char.ofNat_toNat, ih, map_some]
    · have hhigh : (UInt16.ofNat (0xD800 + (c.toNat - 0x10000) / 0x400)).toNat =
          0xD800 + (c.toNat - 0x10000) / 0x400 := Axml.toNat_ofNat16 (by omega)
      have hlow : (UInt16.ofNat (0xDC00 + (c.toNat - 0x10000) % 0x400)).toNat =
          0xDC00 + (c.toNat - 0x10000) % 0x400 := Axml.toNat_ofNat16 (by omega)
      rw [Axml.utf16Char, if_neg hsmall, cons_append, singleton_append, utf16Chars, hhigh,
        hlow, if_neg (by omega), if_pos (by omega), ih, map_some]
      have hchar : 0x10000 + 0x400 * (0xD800 + (c.toNat - 0x10000) / 0x400 - 0xD800) +
          (0xDC00 + (c.toNat - 0x10000) % 0x400 - 0xDC00) = c.toNat := by omega
      rw [hchar, Char.ofNat_toNat]

/-- How many bytes a string takes. -/
def textLength (utf8 : Bool) (s : String) : ℕ :=
  if utf8 then (Text.utf8 s).length else 2 * (Axml.utf16 s).length

/-- **A string that is written is read**, if it is not too long. -/
theorem stringAt_bytes (hpos : pos ≤ body.length) (hfits : Axml.StringFits utf8 s)
    (hlength : textLength utf8 s ≤ maxLabelBytes)
    (h : Holds body (pos + a) (Axml.stringBytes utf8 s)) :
    stringAt (body.drop pos) a utf8 = some s := by
  cases utf8 with
  | true =>
    have hn : (Axml.utf16 s).length < 2 ^ 15 ∧ (Text.utf8 s).length < 2 ^ 15 := hfits
    have hlength : (Text.utf8 s).length ≤ maxLabelBytes := hlength
    rw [Axml.stringBytes, if_pos rfl] at h
    have hraw := h.right.right.left.slice
    have hbytes := Axml.utf8Length_written hn.2 h.right.left
    rw [stringAt, if_pos rfl, len8_drop, Axml.utf8Length_written hn.1 h.left]
    simp only [bind_eq_bind, bind_some, len8_drop]
    rw [← Nat.add_assoc, hbytes, bind_some, if_neg (Nat.not_lt_of_le hlength), slice_drop hpos]
    simp only [← Nat.add_assoc, hraw, bind_some]
    exact Text.fromUtf8_eq_some.2 rfl
  | false =>
    have hn : (Axml.utf16 s).length < 2 ^ 31 := hfits
    have hlength : 2 * (Axml.utf16 s).length ≤ maxLabelBytes := hlength
    rw [Axml.stringBytes, if_neg Bool.false_ne_true] at h
    have hraw := h.right.left.slice
    rw [Axml.length_unitBytes] at hraw
    rw [stringAt, if_neg Bool.false_ne_true, len16_drop hpos, Axml.utf16Length_written hn h.left]
    simp only [bind_eq_bind, bind_some]
    rw [if_neg (Nat.not_lt_of_le hlength), slice_drop hpos]
    simp only [← Nat.add_assoc, hraw, bind_some]
    rw [fromUtf16, Axml.units_flatMap, Axml.utf16, utf16Chars_flatMap, map_some,
      String.ofList_toList]

/-! ## Both readers -/

open Axml (PoolAt maxStrings stringPool)

variable {c : Chunk} {limit' : ℕ}

/-- The two readers of a chunk's header agree. -/
theorem chunk_eq_some : chunk data pos limit = some c ↔ Axml.chunk data pos limit = .ok c := by
  rw [chunk, Axml.chunk]
  rcases le16 data pos with _ | kind
  · constructor <;> intro h <;> cases h
  rcases le16 data (pos + 2) with _ | header
  · constructor <;> intro h <;> cases h
  rcases le32 data (pos + 4) with _ | size
  · constructor <;> intro h <;> cases h
  show (if _ then none else some _) = some c ↔ (Except.ensure _ _).bind _ = .ok c
  rw [Except.ensure]
  by_cases hbad : header.toNat < 8 ∨ size.toNat < header.toNat ∨ limit < pos + size.toNat
  · rw [if_pos hbad, if_neg (not_not_intro hbad)]
    constructor <;> intro h <;> cases h
  · rw [if_neg hbad, if_pos hbad]
    exact ⟨fun h ↦ congrArg Except.ok (some.inj h),
      fun h ↦ congrArg some (Except.ok.inj h)⟩

/-- What the header of a chunk says. -/
theorem chunk_fields (h : chunk data pos limit = some c) :
    (le16 data pos).map UInt16.toNat = some c.1 ∧
      (le16 data (pos + 2)).map UInt16.toNat = some c.2.1 ∧
      (le32 data (pos + 4)).map UInt32.toNat = some c.2.2 ∧
      8 ≤ c.2.1 ∧ c.2.1 ≤ c.2.2 ∧ pos + c.2.2 ≤ limit := by
  simp only [chunk, bind_eq_bind, bind_eq_some_iff] at h
  obtain ⟨kind, hkind, header, hheader, size, hsize, h⟩ := h
  split_ifs at h with hbad
  cases h
  obtain ⟨hheader_ge, hsize_ge, hlimit⟩ :
      8 ≤ header.toNat ∧ header.toNat ≤ size.toNat ∧ pos + size.toNat ≤ limit := by omega
  rw [hkind, hheader, hsize]
  exact ⟨rfl, rfl, rfl, hheader_ge, hsize_ge, hlimit⟩

theorem chunk_of_le (h : chunk data pos limit = some c)
    (hlimit : pos + c.2.2 ≤ limit') : chunk data pos limit' = some c := by
  simp only [chunk, bind_eq_bind, bind_eq_some_iff] at h
  obtain ⟨kind, hkind, header, hheader, size, hsize, h⟩ := h
  split_ifs at h with hbad
  cases h
  dsimp only at hlimit
  rw [chunk, hkind, hheader, hsize]
  exact if_neg (by omega)

/-- Its limit decides whether a chunk is taken, not what it is. -/
theorem chunk_unique {c' : Chunk} (h : chunk data pos limit = some c)
    (h' : chunk data pos limit' = some c') : c = c' := by
  obtain ⟨hkind, hheader, hsize, -⟩ := chunk_fields h
  obtain ⟨hkind', hheader', hsize', -⟩ := chunk_fields h'
  exact Prod.ext (some.inj (hkind.symm.trans hkind'))
    (Prod.ext (some.inj (hheader.symm.trans hheader'))
      (some.inj (hsize.symm.trans hsize')))

theorem parse_eq_some {pool : StringPool} (h : StringPool.parse data pos limit = some pool) :
    ∃ header size count flags stringsStart, chunk data pos limit = some (stringPoolType, header, size) ∧
      le32 data (pos + 8) = some count ∧ le32 data (pos + 16) = some flags ∧
      le32 data (pos + 20) = some stringsStart ∧ pos + size ≤ data.length ∧
      pool = ⟨(data.take (pos + size)).drop pos, count.toNat, header, stringsStart.toNat,
        flags.toNat.testBit 8⟩ := by
  simp only [StringPool.parse, bind_eq_bind, bind_eq_some_iff] at h
  obtain ⟨⟨kind, header, size⟩, hchunk, h⟩ := h
  split_ifs at h with hkind
  rw [not_ne_iff] at hkind
  simp only [bind_eq_some_iff] at h
  obtain ⟨count, hcount, flags, hflags, stringsStart, hstart, h⟩ := h
  split_ifs at h
  obtain ⟨part, hpart, h⟩ := bind_eq_some_iff.1 h
  obtain ⟨rfl, -, hinside⟩ := slice_eq_drop_take hpart
  exact ⟨header, size, count, flags, stringsStart, hkind ▸ hchunk, hcount, hflags, hstart, hinside,
    (some.inj h).symm⟩

theorem chunk_poolAt (pool : PoolAt data pos) (hlimit : pos + pool.size ≤ limit) :
    chunk data pos limit = some (stringPoolType, pool.header, pool.size) := by
  have hkind := Axml.le16_of_holds pool.head.left
  have hheader : le16 data (pos + 2) = some (UInt16.ofNat pool.header) :=
    Axml.le16_of_holds pool.head.right.left
  have hsize : le32 data (pos + 4) = some (UInt32.ofNat pool.size) :=
    Axml.le32_of_holds pool.head.right.right
  have hge := pool.header_ge
  have hle := pool.header_le
  rw [chunk, hkind, hheader, hsize]
  simp only [bind_eq_bind, bind_some, Axml.toNat_ofNat16 pool.header_lt,
    Axml.toNat_ofNat32 pool.size_lt]
  rw [if_neg (by omega)]
  rfl

/-- **A pool is found.** -/
theorem parse_poolAt (pool : PoolAt data pos) (hlimit : pos + pool.size ≤ limit) :
    StringPool.parse data pos limit = some ⟨(data.take (pos + pool.size)).drop pos,
      pool.strings.length, pool.header, pool.stringsStart, pool.utf8⟩ := by
  obtain ⟨hcount, hflags, hstart⟩ := pool.le32_fields
  obtain ⟨hlength, hstart_lt⟩ := pool.lengths_lt
  have hslice : slice data pos (pos + pool.size) = some ((data.take (pos + pool.size)).drop pos) := by
    rw [slice, if_pos ⟨Nat.le_add_right _ _, pool.inside⟩, drop_take]
  rw [StringPool.parse, chunk_poolAt pool hlimit]
  simp only [bind_eq_bind, bind_some]
  rw [if_neg (not_not_intro rfl), hcount, hflags, hstart]
  simp only [bind_some, Axml.toNat_ofNat32 hlength, Axml.toNat_ofNat32 hstart_lt]
  rw [if_neg (Nat.not_lt_of_le pool.start_le), hslice]
  rfl

/-- **A string that is not too long is read.** -/
theorem get_poolAt (pool : PoolAt data pos) (hi : pool.strings[i]? = some s)
    (hlength : textLength pool.utf8 s ≤ maxLabelBytes) :
    StringPool.get ⟨(data.take (pos + pool.size)).drop pos, pool.strings.length, pool.header,
      pool.stringsStart, pool.utf8⟩ i = some s := by
  obtain ⟨offset, hoffset, hfits, htext, hlt⟩ := pool.text_lt hi
  have hcount : i < pool.strings.length := (List.getElem?_eq_some_iff.1 hi).1
  have hinside := pool.inside
  have hle := pool.header_le
  have hsize := pool.size_lt
  have hpos : pos ≤ (data.take (pos + pool.size)).length := by
    rw [List.length_take]
    omega
  have hread : le32 (data.take (pos + pool.size)) (pos + (pool.header + 4 * i)) =
      some (UInt32.ofNat offset) := by
    rw [← Nat.add_assoc]
    refine Axml.le32_of_holds (hoffset.take ?_)
    rw [Axml.length_le32Bytes]
    omega
  rw [StringPool.get, if_neg (Nat.not_le_of_lt hcount), le32_drop hpos, hread]
  show stringAt _ _ _ = some s
  rw [Axml.toNat_ofNat32 (by omega)]
  refine stringAt_bytes hpos hfits hlength ?_
  rwa [← Nat.add_assoc]

/-- **What is read one by one is what is read at once.** -/
theorem getElem?_stringPool {strings : List String} {pool : StringPool}
    (hchunk : Axml.chunk data pos limit = .ok c)
    (hstrings : stringPool data pos c.2.1 c.2.2 = .ok strings)
    (hpool : StringPool.parse data pos limit' = some pool) (hget : pool.get i = some s) :
    strings[i]? = some s := by
  obtain ⟨header, size, count, flags, stringsStart, hc, hcount, hflags, hstart, hinside, rfl⟩ :=
    parse_eq_some hpool
  obtain rfl := chunk_unique hc (chunk_eq_some.2 hchunk)
  rw [stringPool, hcount, hflags, hstart] at hstrings
  have hstrings : (Except.ensure (count.toNat ≤ maxStrings) _ >>= fun _ ↦
      (range count.toNat).mapM (Axml.poolEntry data pos header size stringsStart.toNat
        (flags.toNat.testBit 8))) = .ok strings := hstrings
  obtain ⟨-, -, hstrings⟩ := Except.bind_ok.1 hstrings
  have hpos : pos ≤ (data.take (pos + size)).length := by
    rw [length_take]
    omega
  -- the string that is read by itself
  rw [StringPool.get] at hget
  split_ifs at hget with hi
  obtain ⟨offset, hoffset, htext⟩ := bind_eq_some_iff.1 hget
  rw [le32_drop hpos] at hoffset
  have htext : Axml.poolString (data.take (pos + size))
      (pos + (stringsStart.toNat + offset.toNat)) (flags.toNat.testBit 8) = some s :=
    poolString_of_stringAt hpos htext
  -- and the one that is read with the others
  obtain ⟨text, hentry, htexts⟩ := Except.getElem?_mapM hstrings
    (getElem?_range (Nat.lt_of_not_le hi))
  have hin := poolString_inside htext
  rw [length_take] at hin
  rw [Axml.poolEntry, Nat.add_assoc pos, le32_of_take hoffset] at hentry
  have hentry : (if pos + stringsStart.toNat + offset.toNat < pos + size then
      Axml.range data 0 (pos + size) >>= fun body ↦ .ok ((Axml.poolString body
        (pos + stringsStart.toNat + offset.toNat) (flags.toNat.testBit 8)).getD "")
      else .ok "") = Except.ok text := hentry
  rw [if_pos (by omega), Axml.range, slice_zero hinside] at hentry
  rw [htexts, ← Except.ok.inj hentry, Nat.add_assoc, htext]
  rfl

/-- **The two readers agree with the format and with each other.**  A pool of no more strings than
are allowed is read as it is by the one, and string by string, where they are not too long, by the
other; and whatever a chunk is, a string that the one reads has the other in its place. -/
theorem readers_agree :
    (∀ (data : List UInt8) (pos limit : ℕ) (pool : PoolAt data pos),
      pool.strings.length ≤ maxStrings → pos + pool.size ≤ limit →
      stringPool data pos pool.header pool.size = .ok pool.strings ∧
      ∃ located, StringPool.parse data pos limit = some located ∧
        ∀ i s, pool.strings[i]? = some s → textLength pool.utf8 s ≤ maxLabelBytes →
          located.get i = some s) ∧
    ∀ (data : List UInt8) (pos limit limit' : ℕ) (c : Chunk) (strings : List String)
      (pool : StringPool), Axml.chunk data pos limit = .ok c →
      stringPool data pos c.2.1 c.2.2 = .ok strings →
      StringPool.parse data pos limit' = some pool →
      ∀ i s, pool.get i = some s → strings[i]? = some s := by
  constructor
  · intro data pos limit pool hcount hlimit
    exact ⟨pool.stringPool hcount, _, parse_poolAt pool hlimit, fun i s ↦ get_poolAt pool⟩
  · intro data pos limit limit' c strings pool hchunk hstrings hpool i s
    exact getElem?_stringPool hchunk hstrings hpool

end Huntsman.Arsc
